import Mtfss.Effects.Threads
import Mtfss.Server.Changes
import Mtfss.Server.FileRules
import Mtfss.System.Oblige

/-! What an upload that is not answered 201 leaves behind. -/

namespace Mtfss.FailedUpload

open Effects Paths Server FileManager

variable {env : Env} {host : Endian} {user : Bytes} {req : Request} {payload : Bytes}
variable {l l' : Local} {s s' : Store} {r : Except Exn (Reply × Bytes)}

def Created (r : Except Exn (Reply × Bytes)) : Prop :=
  ∃ header body user', r = .ok (.message header body, user') ∧
    header.status = StatusCode.created.code

lemma not_created_error {e : Exn} : ¬ Created (.error e) := by
  rintro ⟨_, _, _, h, _⟩
  cases h

lemma created_respond {cmd : UInt32} {status : StatusCode} {body user' : Bytes} :
    Created (.ok (respond cmd status body, user')) ↔ status = .created := by
  constructor
  · rintro ⟨header, _, _, heq, hstatus⟩
    cases heq
    exact StatusCode.code_injective hstatus
  · rintro rfl
    exact ⟨_, _, _, rfl, rfl⟩

def SameFiles (s s' : Store) : Prop :=
  (∀ m, s'.disk.content m = s.disk.content m) ∧ s'.index = s.index

/-- The upload opens a file that exists, and loses its connection before the payload is complete. -/
structure CutsFile (env : Env) (user : Bytes) (req : Request) (l : Local) (s : Store) : Prop where
  login : user ≠ []
  valid : isValidFilename req.filename = true
  dir : s.disk.existsAt (dirLoc env user) = true ∨
    (s.disk.createDirectories (dirLoc env user)).isSome
  allowed : s.disk.denied (fileLoc env user req.filename) = false
  old : s.disk.isRegularFile (fileLoc env user req.filename) = true
  eof : l.conn.eof = true
  cut : l.conn.input.length < req.header.payloadLength.toNat

lemma dispatch_upload (hcmd : req.header.command = CommandType.upload.code) :
    dispatch host user req payload =
      (upload user req.filename req.header.command req.header.payloadLength).bind
        (fun reply => .pure (reply, user)) := by
  have hcode : CommandType.ofCode req.header.command = some .upload :=
    (CommandType.ofCode_eq_some _ _).mpr hcmd
  rw [dispatch, hcode]
  rfl

lemma wp_dispatch_upload (hf : env.faults = .none)
    (hcmd : req.header.command = CommandType.upload.code) (huser : user ≠ []) (hidle : s.Idle)
    (hends : l.conn.Ends req.header.payloadLength.toNat) :
    wp (next env) (dispatch host user req payload) (fun r m => ∃ b d ix,
      UploadEnd env user req.filename l.conn.input req.header.payloadLength s.disk s.index b d ix ∧
        (Created r ↔ b = true) ∧ m.2.disk = d ∧ m.2.index = ix) (l, s) := by
  rw [dispatch_upload hcmd, wp_bind, upload, if_neg huser, Prog.bind_eq, wp_bind]
  refine wp_mono (wp_saveFile hf hidle hends) ?_
  rintro _ m ⟨b, d, ix, hend, rfl, entry, locks, -, rfl⟩
  cases b with
  | true => exact ⟨true, d, ix, hend, iff_of_true ⟨_, _, _, rfl, rfl⟩ rfl, rfl, rfl⟩
  | false =>
    refine ⟨false, d, ix, hend, iff_of_false ?_ (by simp), rfl, rfl⟩
    exact fun h => absurd (created_respond.mp h) (by decide)

lemma sameFiles_of_adds {d : Disk} {m : Loc} (h : s.disk.AddsDirs d m) (hd : s'.disk = d)
    (hix : s'.index = s.index) : SameFiles s s' :=
  ⟨fun m => by rw [hd, h.content], hix⟩

lemma sameFiles_of_uploadEnd {f input : Bytes} {size : UInt64}
    (h : UploadEnd env user f input size s.disk s.index false s'.disk s'.index)
    (hnew : isValidFilename f = true → input.length < size.toNat →
      s.disk.existsAt (dirLoc env user) = true ∨
        (s.disk.createDirectories (dirLoc env user)).isSome →
      s.disk.denied (fileLoc env user f) = false →
      s.disk.isRegularFile (fileLoc env user f) = false) : SameFiles s s' := by
  generalize hd : s'.disk = d at h
  generalize hix : s'.index = ix at h
  cases h with
  | noDir => exact sameFiles_of_adds (.refl _ []) hd hix
  | rejected hens => exact sameFiles_of_adds hens.adds hd hix
  | denied hens => exact sameFiles_of_adds hens.adds hd hix
  | @lost d' _ hens hvalid hopen hlen hsets =>
    refine ⟨fun m => ?_, hix⟩
    rw [hd]
    by_cases hm : m = fileLoc env user f
    · subst hm
      have hdir : s.disk.existsAt (dirLoc env user) = true ∨
          (s.disk.createDirectories (dirLoc env user)).isSome := by
        rcases hens with ⟨h, -⟩ | ⟨-, h⟩
        · exact Or.inl h
        · exact Or.inr (by simp [h])
      have hallowed := (Disk.openOut_isSome_iff.mp hopen).2.2
      rw [hens.adds.denied] at hallowed
      have hnone := hnew hvalid hlen hdir hallowed
      rw [Disk.isRegularFile, Option.isSome_eq_false_iff, Option.isNone_iff_eq_none] at hnone
      rw [hnone, Disk.content, hsets.at]
    · rw [hsets.content hm, hens.adds.content]

lemma not_sameFiles_of_uploadEnd {b : Bool} (hcut : CutsFile env user req l s)
    (h : UploadEnd env user req.filename l.conn.input req.header.payloadLength s.disk s.index b
      s'.disk s'.index) : b = false ∧ ¬ SameFiles s s' := by
  obtain ⟨c, hc⟩ := Option.isSome_iff_exists.mp hcut.old
  have hopens : ∀ {d'}, Ensured env user s.disk d' →
      (d'.openOut (fileLoc env user req.filename)).isSome := by
    intro d' hens
    refine (Disk.openOut_isSome_of_file ?_).mpr ?_
    · rw [Disk.isRegularFile, hens.adds.content]
      exact hcut.old
    · rw [hens.adds.denied]
      exact hcut.allowed
  have hdir := hcut.dir
  generalize hd : s'.disk = d at h
  generalize hix : s'.index = ix at h
  cases h with
  | noDir hexists hnone => simp [hexists, hnone] at hdir
  | rejected _ hinvalid => simp [hcut.valid] at hinvalid
  | denied hens _ hnone =>
    have hopen := hopens hens
    rw [hnone] at hopen
    cases hopen
  | lost hens hvalid hopen hlen hsets =>
    refine ⟨rfl, fun hsame => ?_⟩
    have hfile := hsame.1 (fileLoc env user req.filename)
    rw [hd, hc, Disk.content, hsets.at] at hfile
    cases hfile
  | saved _ _ _ _ hlen => exact absurd hcut.cut (by omega)

lemma wp_dispatch_refused (hf : env.faults = .none)
    (hcmd : req.header.command = CommandType.upload.code)
    (hends : l.conn.Ends req.header.payloadLength.toNat) :
    wp (next env) (dispatch host [] req payload) (fun _ m => m.2 = s) (l, s) := by
  rw [dispatch_upload hcmd, wp_bind, upload, if_pos rfl, Prog.bind_eq, wp_bind, wp_discard hf hends]
  rfl

lemma sameFiles_of_run (hf : env.faults = .none)
    (hcmd : req.header.command = CommandType.upload.code) (hidle : s.Idle)
    (hends : l.conn.Ends req.header.payloadLength.toNat) (hcut : ¬ CutsFile env user req l s)
    (h : Steps (next env) (dispatch host user req payload, (l, s)) (Prog.ofExcept r, (l', s')))
    (hr : ¬ Created r) : SameFiles s s' := by
  by_cases huser : user = []
  · subst huser
    have hsame : s' = s := wp_result (wp_dispatch_refused hf hcmd hends) h
    exact hsame ▸ ⟨fun _ => rfl, rfl⟩
  obtain ⟨b, d, ix, hend, hcreated, rfl, rfl⟩ :=
    wp_result (wp_dispatch_upload hf hcmd huser hidle hends) h
  have hb : b = false := by
    by_contra hb
    exact hr (hcreated.mpr (by simpa using hb))
  subst hb
  refine sameFiles_of_uploadEnd hend (fun hvalid hlen hdir hallowed => ?_)
  by_contra hold
  exact hcut ⟨huser, hvalid, hdir, hallowed, by simpa using hold,
    hends.resolve_left (by omega), hlen⟩

lemma changes_of_cutsFile (hf : env.faults = .none) (host : Endian)
    (hcmd : req.header.command = CommandType.upload.code) (payload : Bytes) (hidle : s.Idle)
    (hcut : CutsFile env user req l s) :
    ∃ r l' s', Steps (next env) (dispatch host user req payload, (l, s))
      (Prog.ofExcept r, (l', s')) ∧ ¬ Created r ∧ ¬ SameFiles s s' := by
  have hends : l.conn.Ends req.header.payloadLength.toNat := Or.inr hcut.eof
  have hwp : wp (next env) (dispatch host user req payload) _ (l, s) :=
    wp_dispatch_upload hf hcmd hcut.login hidle hends
  obtain ⟨r, ⟨l', s'⟩, hsteps, b, d, ix, hend, hcreated, rfl, rfl⟩ := wp_completes hwp
  obtain ⟨rfl, hchanged⟩ := not_sameFiles_of_uploadEnd hcut hend
  exact ⟨r, l', s', hsteps, by simp [hcreated], hchanged⟩

/-- Where no call fails by itself, an upload that is not answered 201 leaves all files and the index
as they were, unless it cuts a file that exists. -/
lemma unchanged_iff_not_cuts (hf : env.faults = .none)
    (hcmd : req.header.command = CommandType.upload.code) (hidle : s.Idle) :
    (∀ r l' s', Steps (next env) (dispatch host user req payload, (l, s))
      (Prog.ofExcept r, (l', s')) → ¬ Created r → SameFiles s s') ↔
      ¬ CutsFile env user req l s := by
  constructor
  · intro hall hcut
    obtain ⟨r, l', s', hsteps, hr, hchanged⟩ := changes_of_cutsFile hf host hcmd payload hidle hcut
    exact hchanged (hall r l' s' hsteps hr)
  · intro hcut r l' s' hsteps hr
    by_cases hends : l.conn.Ends req.header.payloadLength.toNat
    · exact sameFiles_of_run hf hcmd hidle hends hcut hsteps hr
    -- a connection that stays up is as good as one on which the rest of the payload arrives
    have heof : l.conn.eof = false := by
      by_contra heof
      exact hends (Or.inr (by simpa using heof))
    obtain ⟨_, hsteps', -, rfl⟩ := (next_extend env
      (List.replicate req.header.payloadLength.toNat 0)).steps ⟨heof, rfl⟩ hsteps
    refine sameFiles_of_run hf hcmd hidle (Or.inl ?_) (fun hcut => ?_) hsteps' hr
    · simp [Conn.extend]
    · have := hcut.eof
      rw [Conn.extend, heof] at this
      cases this

/-- What the calls of an upload have made of its file: nothing yet, opened and filled with what has
been written, removed again, or filled and recorded in the index. -/
inductive Fate
  | untouched
  | filled (written : Bytes)
  | removed
  | recorded (written time : Bytes)
  deriving DecidableEq

def fate : Monitor Call Answer Fate
  | .openOut _, t, r => if r = true then .filled [] else t
  | .write _ data, .filled w, none => .filled (w ++ data)
  | .write _ data, .filled w, some n => .filled (w ++ data.take n)
  | .closeOut _, .filled w, some n => .filled (w.take n)
  | .fsRemove _, _, .ok true => .removed
  | .addFile _ _ _ time, .filled w, .ok _ => .recorded w time
  | _, t, _ => t

abbrev followed (env : Env) : Next Call Answer ((Local × Fate) × Store) := fate.watch (next env)

namespace Fate

/-- What is in the file, if `old` was in it before. -/
def content (old : Option Bytes) : Fate → Option Bytes
  | .untouched => old
  | .filled w | .recorded w _ => some w
  | .removed => none

def index (dir f : Bytes) (size : UInt64) (ix : Index) : Fate → Index
  | .recorded _ time => ix.addFile dir f size time
  | _ => ix

end Fate

/-- Nothing has been made of the file; or it has been removed and was not there before; or it is
left with the very bytes that were in it, and with the entry it had if it has been recorded. -/
def Harmless (env : Env) (user f : Bytes) (size : UInt64) (s : Store) : Fate → Prop
  | .untouched => True
  | .removed => s.disk.content (fileLoc env user f) = none
  | .filled w => s.disk.content (fileLoc env user f) = some w
  | .recorded w time => s.disk.content (fileLoc env user f) = some w ∧
      s.index.addFile (indexDir user) f size time = s.index

/-- The disk and the index are those of `s`, but for what `t` says. -/
structure Traced (env : Env) (user f : Bytes) (size : UInt64) (s : Store) (t : Fate)
    (m : (Local × Fate) × Store) : Prop where
  record : m.1.2 = t
  file : m.2.disk.content (fileLoc env user f) = t.content (s.disk.content (fileLoc env user f))
  others : ∀ x, x ≠ fileLoc env user f → m.2.disk.content x = s.disk.content x
  index : m.2.index = t.index (indexDir user) f size s.index

lemma sameFiles_iff_harmless {f : Bytes} {size : UInt64} {t : Fate} {m : (Local × Fate) × Store}
    (h : Traced env user f size s t m) : SameFiles s m.2 ↔ Harmless env user f size s t := by
  have hsame : SameFiles s m.2 ↔ t.content (s.disk.content (fileLoc env user f)) =
      s.disk.content (fileLoc env user f) ∧ t.index (indexDir user) f size s.index = s.index := by
    rw [SameFiles, h.index, ← h.file]
    refine and_congr_left fun _ => ⟨fun hall => hall _, fun hfile x => ?_⟩
    by_cases hx : x = fileLoc env user f
    · rw [hx, hfile]
    · exact h.others x hx
  rw [hsame]
  cases t <;> simp [Fate.content, Fate.index, Harmless, eq_comm]

section Exits

variable {α β : Type} {f p : Bytes} {size : UInt64} {t : Fate} {m m' : (Local × Fate) × Store}

/-- Whatever the result, the files are as the record says. -/
abbrev Ends (env : Env) (user f : Bytes) (size : UInt64) (s : Store) (p : Code α)
    (m : (Local × Fate) × Store) : Prop :=
  Safe (followed env) (fun _ _ => True) p (fun _ m' => ∃ t, Traced env user f size s t m') m

def isAside (o : Call) : Bool := !o.writesDisk && !o.writesIndex

lemma fate_aside {o : Call} (ho : isAside o = true) (t : Fate) (r : Answer o) : fate o t r = t := by
  cases o with
  | openOut | write | closeOut | fsRemove | addFile => cases ho
  | _ => cases t <;> rfl

lemma Traced.aside {o : Call} {r : Answer o} (h : Traced env user f size s t m)
    (hr : followed env o m r = some m') (ho : isAside o = true) :
    Traced env user f size s t m' := by
  obtain ⟨hd, hi⟩ : o.writesDisk = false ∧ o.writesIndex = false := by simpa [isAside] using ho
  obtain ⟨⟨l, _⟩, s₁⟩ := m
  obtain ⟨⟨l', _⟩, s₂⟩ := m'
  obtain ⟨hnext, rfl⟩ := Monitor.watch_eq_some.mp hr
  obtain ⟨rfl, hfile, hothers, hindex⟩ := h
  have hdisk := next_disk hnext hd
  refine ⟨fate_aside ho _ r, ?_, fun x hx => ?_, ?_⟩
  · rw [hdisk, hfile]
  · rw [hdisk, hothers x hx]
  · rw [next_index hnext hi, hindex]

lemma Traced.call {o : Call} {k : Answer o → Code α} (h : Traced env user f size s t m)
    (ho : isAside o = true)
    (hk : ∀ r m', followed env o m r = some m' → Traced env user f size s t m' →
      Ends env user f size s (k r) m') : Ends env user f size s (.op o k) m :=
  ⟨trivial, fun r m' hr => hk r m' hr (h.aside hr ho)⟩

lemma Traced.passive {p : Code α} (hp : Passive p) (h : Traced env user f size s t m) :
    Safe (followed env) (fun _ _ => True) p (fun _ m' => Traced env user f size s t m') m := by
  refine safe_of_calls hp ?_ (fun _ _ _ _ => trivial) ?_ h
  · rintro o ⟨⟨l, t⟩, s⟩ r ⟨⟨l', t'⟩, s'⟩ hr
    exact next_faithful (Monitor.watch_eq_some.mp hr).1
  · intro o m r m' ho hr h
    refine h.aside hr ?_
    cases o <;> first | rfl | cases ho

lemma Traced.after {p : Code α} {k : α → Code β} (hp : Passive p) (h : Traced env user f size s t m)
    (hk : ∀ a m', Traced env user f size s t m' → Ends env user f size s (k a) m') :
    Ends env user f size s (p.bind k) m := by
  refine safe_bind_of (h.passive hp) ?_
  rintro (e | a) m' h'
  · exact ⟨t, h'⟩
  · exact hk a m' h'

/-- A call on the file, of which the record says what it has put there. -/
lemma Traced.change {t' : Fate} {x : Option Node} {l l' : Local} {s₁ s₂ : Store} {j j' : Fate}
    (h : Traced env user f size s t ((l, j), s₁)) (hj : j' = t')
    (hsets : s₁.disk.Sets s₂.disk (fileLoc env user f) x) (hix : s₂.index = s₁.index)
    (hx : s₂.disk.content (fileLoc env user f) = t'.content (s.disk.content (fileLoc env user f)))
    (hindex : t'.index (indexDir user) f size s.index = t.index (indexDir user) f size s.index) :
    Traced env user f size s t' ((l', j'), s₂) where
  record := hj
  file := hx
  others y hy := (hsets.content hy).trans (h.others y hy)
  index := by rw [hindex, hix, h.index]

lemma Traced.opened (h : Traced env user f size s .untouched m)
    (hr : followed env (.openOut (filePath user f)) m true = some m') :
    Traced env user f size s (.filled []) m' := by
  obtain ⟨⟨l, j⟩, s₁⟩ := m
  obtain ⟨⟨l', j'⟩, s₂⟩ := m'
  obtain ⟨hnext, rfl⟩ := Monitor.watch_eq_some.mp hr
  obtain ⟨d, hd, hpair⟩ := Option.map_eq_some_iff.mp hnext
  cases hpair
  have hsets := Disk.openOut_sets hd
  exact h.change rfl hsets rfl (Disk.content_eq_some.mpr hsets.at) rfl

lemma Traced.refused (h : Traced env user f size s .untouched m)
    (hr : followed env (.openOut p) m false = some m') :
    Traced env user f size s .untouched m' := by
  obtain ⟨⟨l, j⟩, s₁⟩ := m
  obtain ⟨⟨l', j'⟩, s₂⟩ := m'
  obtain ⟨hnext, rfl⟩ := Monitor.watch_eq_some.mp hr
  simp only [next, Bool.false_eq_true, if_false, Option.ite_none_right_eq_some] at hnext
  obtain ⟨-, hpair⟩ := hnext
  cases hpair
  exact ⟨h.record, h.file, h.others, h.index⟩

/-- A filled file is changed as `g` says. -/
lemma Traced.edited {w : Bytes} {g : Bytes → Bytes} {l l' : Local} {s₁ : Store} {j j' : Fate}
    (h : Traced env user f size s (.filled w) ((l, j), s₁)) (hj : j' = .filled (g w)) :
    Traced env user f size s (.filled (g w))
      ((l', j'), { s₁ with disk := s₁.disk.modify (fileLoc env user f) g }) := by
  have hnode := Disk.content_eq_some.mp h.file
  have hsets := Disk.modify_sets hnode g
  exact h.change hj hsets rfl (Disk.content_eq_some.mpr hsets.at) rfl

lemma Traced.written {w data : Bytes} {r : Option ℕ} (h : Traced env user f size s (.filled w) m)
    (hr : followed env (.write (filePath user f) data) m r = some m') :
    ∃ w', Traced env user f size s (.filled w') m' := by
  obtain ⟨⟨l, j⟩, s₁⟩ := m
  obtain ⟨⟨l', j'⟩, s₂⟩ := m'
  obtain ⟨hnext, rfl⟩ := Monitor.watch_eq_some.mp hr
  obtain rfl : j = .filled w := h.record
  cases r with
  | none =>
    cases hnext
    exact ⟨_, h.edited (g := fun c => c ++ data) rfl⟩
  | some n =>
    simp only [next, Option.ite_none_right_eq_some] at hnext
    obtain ⟨-, hpair⟩ := hnext
    cases hpair
    exact ⟨_, h.edited (g := fun c => c ++ data.take n) rfl⟩

lemma Traced.closed {w : Bytes} {r : Option ℕ} (h : Traced env user f size s (.filled w) m)
    (hr : followed env (.closeOut (filePath user f)) m r = some m') :
    ∃ w', Traced env user f size s (.filled w') m' := by
  obtain ⟨⟨l, j⟩, s₁⟩ := m
  obtain ⟨⟨l', j'⟩, s₂⟩ := m'
  obtain ⟨hnext, rfl⟩ := Monitor.watch_eq_some.mp hr
  obtain rfl : j = .filled w := h.record
  cases r with
  | none =>
    cases hnext
    exact ⟨w, rfl, h.file, h.others, h.index⟩
  | some n =>
    simp only [next, Option.ite_none_right_eq_some] at hnext
    obtain ⟨-, hpair⟩ := hnext
    cases hpair
    exact ⟨_, h.edited (g := fun c => c.take n) rfl⟩

lemma Traced.removed {w : Bytes} {r : Except Exn Bool} (h : Traced env user f size s (.filled w) m)
    (hr : followed env (.fsRemove (filePath user f)) m r = some m') :
    ∃ t, Traced env user f size s t m' := by
  obtain ⟨⟨l, j⟩, s₁⟩ := m
  obtain ⟨⟨l', j'⟩, s₂⟩ := m'
  obtain ⟨hnext, rfl⟩ := Monitor.watch_eq_some.mp hr
  rw [next, Rules.orThrow_eq_some] at hnext
  obtain ⟨b, rfl, hbind⟩ | ⟨-, rfl, ⟨⟩⟩ := hnext
  · obtain ⟨⟨b', d⟩, hd, hanswer⟩ := Option.bind_eq_some_iff.mp hbind
    obtain ⟨rfl, hpair⟩ := Rules.answer_eq_some.mp hanswer
    cases hpair
    obtain ⟨d', hremove, hsets⟩ := Disk.remove_file (Disk.content_eq_some.mp h.file)
    cases hd.symm.trans hremove
    exact ⟨.removed, h.change rfl hsets rfl (by rw [Disk.content, hsets.at]; rfl) rfl⟩
  · exact ⟨.filled w, h.record, h.file, h.others, h.index⟩

lemma Traced.entered {w time : Bytes} {r : Except Exn Unit}
    (h : Traced env user f size s (.filled w) m)
    (hr : followed env (.addFile (indexDir user) f size time) m r = some m') :
    ∃ t, Traced env user f size s t m' := by
  obtain ⟨⟨l, j⟩, s₁⟩ := m
  obtain ⟨⟨l', j'⟩, s₂⟩ := m'
  obtain ⟨hnext, rfl⟩ := Monitor.watch_eq_some.mp hr
  obtain rfl : j = .filled w := h.record
  rw [next, Rules.orThrow_eq_some] at hnext
  obtain ⟨_, rfl, ⟨⟩⟩ | ⟨-, rfl, ⟨⟩⟩ := hnext
  · have hindex : s₁.index = s.index := h.index
    exact ⟨.recorded w time, rfl, h.file, h.others, by simp only [Fate.index, hindex]⟩
  · exact ⟨.filled w, rfl, h.file, h.others, h.index⟩

lemma receiveLoop_traced {fuel n : ℕ} {good : Bool} {w : Bytes}
    (h : Traced env user f size s (.filled w) m) :
    Safe (followed env) (fun _ _ => True) (receiveLoop (filePath user f) fuel n good)
      (fun _ m' => ∃ w, Traced env user f size s (.filled w) m') m := by
  induction fuel generalizing n good w m with
  | zero => exact ⟨w, h⟩
  | succ fuel ih =>
    rw [receiveLoop]
    split
    swap
    · exact ⟨w, h⟩
    refine safe_bind_of (h.passive (passive_of_within (within_recvAll _))) ?_
    rintro (e | _ | buf) m₁ h₁
    · exact ⟨w, h₁⟩
    · exact ⟨w, h₁⟩
    cases good with
    | false => exact ih h₁
    | true =>
      refine ⟨trivial, fun r m₂ hr => ?_⟩
      obtain ⟨w', h₂⟩ := h₁.written hr
      exact ih h₂

lemma saveLocked_traced (h : Traced env user f size s .untouched m) :
    Ends env user f size s (saveLocked user f (filePath user f) size) m := by
  have hlog : Passive Sys.log := passive_of_within within_log
  refine ⟨trivial, fun opened m₁ hopen => ?_⟩
  cases opened with
  | false =>
    refine (h.refused hopen).after (p := Sys.log) hlog fun _ _ h => ?_
    refine h.after (p := discardData size) (passive_of_within (within_discardData size))
      fun _ _ h => ?_
    exact h.call rfl fun _ _ _ h => h.call rfl fun _ _ _ h => ⟨_, h⟩
  | true =>
    refine (h.opened hopen).call rfl fun r _ _ h => ?_
    rcases r with e | _
    · exact ⟨_, h⟩
    refine safe_bind_of (p := receiveLoop _ _ _ _) (receiveLoop_traced h) ?_
    rintro (e | _ | _) m₂ ⟨w, h⟩
    · exact ⟨_, h⟩
    · refine h.after (p := Sys.log) hlog fun _ _ h => ⟨trivial, fun r m₃ hclose => ?_⟩
      obtain ⟨w, h⟩ := h.closed hclose
      refine ⟨trivial, fun r m₄ hremove => ?_⟩
      obtain ⟨t, h⟩ := h.removed hremove
      rcases r with e | _
      · exact ⟨t, h⟩
      · exact h.call rfl fun _ _ _ h => ⟨t, h⟩
    · refine ⟨trivial, fun r m₃ hclose => ?_⟩
      obtain ⟨w, h⟩ := h.closed hclose
      refine h.call rfl fun time _ _ h => ⟨trivial, fun r m₄ hadd => ?_⟩
      obtain ⟨t, h⟩ := h.entered hadd
      rcases r with e | _
      · exact ⟨t, h⟩
      refine h.after (p := Sys.log) hlog fun _ _ h => ?_
      exact h.call rfl fun _ _ _ h => h.call rfl fun _ _ _ h => ⟨_, h⟩

lemma ensureDir_traced (h : Traced env user f size s t m) :
    Safe (followed env) (fun _ _ => True) (ensureDir p)
      (fun _ m' => Traced env user f size s t m') m := by
  refine ⟨trivial, fun r m₁ hr => ?_⟩
  have h₁ := h.aside hr rfl
  rcases r with e | _ | _
  · exact h₁
  · refine ⟨trivial, fun r m₂ hr => ?_⟩
    rw [safe_ofExcept]
    obtain ⟨⟨l₁, j₁⟩, s₁⟩ := m₁
    obtain ⟨⟨l₂, j₂⟩, s₂⟩ := m₂
    obtain ⟨hnext, hj⟩ := Monitor.watch_eq_some.mp hr
    have hrecord : j₂ = t := by
      rw [← h₁.record, hj]
      cases j₁ <;> rfl
    rw [next, Rules.orThrow_eq_some] at hnext
    obtain ⟨_, rfl, hmap⟩ | ⟨-, rfl, ⟨⟩⟩ := hnext
    · obtain ⟨d, hd, hpair⟩ := Option.map_eq_some_iff.mp hmap
      cases hpair
      have hadds := Disk.createDirectories_adds hd
      exact ⟨hrecord, (hadds.content _).trans h₁.file,
        fun x hx => (hadds.content x).trans (h₁.others x hx), h₁.index⟩
    · exact ⟨hrecord, h₁.file, h₁.others, h₁.index⟩
  · exact h₁

lemma pathAppend_traced {x y : Bytes} {k : Bytes → Code α} (h : Traced env user f size s t m)
    (hk : ∀ m', Traced env user f size s t m' → Ends env user f size s (k (append x y)) m') :
    Ends env user f size s ((Sys.pathAppend x y).bind k) m := by
  refine h.call rfl fun r m' hr h' => ?_
  obtain ⟨⟨l, j⟩, s₁⟩ := m
  obtain ⟨⟨l', j'⟩, s₂⟩ := m'
  obtain rfl | ⟨e, rfl⟩ := pathAppend_answer (Monitor.watch_eq_some.mp hr).1
  · exact hk _ h'
  · exact ⟨t, h'⟩

lemma saveFile_traced (h : Traced env user f size s .untouched m) :
    Ends env user f size s (saveFile user f size) m := by
  have hlog : Passive Sys.log := passive_of_within within_log
  have hdiscard : Passive (discardData size) := passive_of_within (within_discardData size)
  have htry : Ends env user f size s (trySaveFile user f size) m := by
    refine pathAppend_traced h fun m₁ h => safe_bind_of (ensureDir_traced h) ?_
    rintro (e | _) m₂ h
    · exact ⟨_, h⟩
    rw [safeBind_ok, saveInto]
    split
    · exact h.after hlog fun _ _ h => h.after hdiscard fun _ _ h => ⟨_, h⟩
    refine pathAppend_traced h fun m₃ h => ?_
    refine h.call rfl fun r _ _ h => ?_
    rcases r with e | _
    · exact ⟨_, h⟩
    refine h.call rfl fun _ _ _ h => safe_tryCatch.mpr (safe_mono (saveLocked_traced h) ?_)
    rintro (e | b) m₄ ⟨t, h⟩
    · exact h.call rfl fun _ _ _ h => ⟨t, h⟩
    · exact ⟨t, h⟩
  refine safe_tryCatch.mpr (safe_mono htry ?_)
  rintro (e | b) m' ⟨t, h⟩
  · exact h.after hlog fun _ _ h => h.after hdiscard fun _ _ h => ⟨_, h⟩
  · exact ⟨t, h⟩

lemma dispatch_traced (hcmd : req.header.command = CommandType.upload.code)
    (l : Local) (s : Store) :
    Ends env user req.filename req.header.payloadLength s (dispatch host user req payload)
      ((l, .untouched), s) := by
  have h : Traced env user req.filename req.header.payloadLength s .untouched
      ((l, .untouched), s) :=
    ⟨rfl, rfl, fun _ _ => rfl, rfl⟩
  rw [dispatch_upload hcmd, upload]
  refine safe_bind_of (p := ite _ _ _) (R := fun _ m' => ∃ t,
    Traced env user req.filename req.header.payloadLength s t m') ?_ ?_
  · split
    · exact h.after (passive_of_within (within_discardData _)) fun _ _ h => ⟨_, h⟩
    · refine safe_bind_of (saveFile_traced h) ?_
      rintro (e | b) m' h'
      · exact h'
      · cases b <;> exact h'
  · rintro (e | b) m' h'
    · exact h'
    · exact h'

end Exits

/-- An upload that is not answered 201 leaves all files and the index as they were exactly when its
calls have come to nothing, were undone, or have left what was there. When nothing fails by itself,
that is unless it cuts a file that exists. -/
theorem failed_upload_unchanged_iff (env : Env) (host : Endian) (user : Bytes) (req : Request)
    (hcmd : req.header.command = CommandType.upload.code) (payload : Bytes)
    (l : Local) (s : Store) :
    (∀ r l' t s', Steps (followed env) (dispatch host user req payload, ((l, .untouched), s))
      (Prog.ofExcept r, ((l', t), s')) → ¬ Created r →
      (SameFiles s s' ↔ Harmless env user req.filename req.header.payloadLength s t)) ∧
    (env.faults = .none → s.Idle →
      ((∀ r l' s', Steps (next env) (dispatch host user req payload, (l, s))
        (Prog.ofExcept r, (l', s')) → ¬ Created r → SameFiles s s') ↔
      ¬ CutsFile env user req l s)) := by
  refine ⟨fun r l' t s' hrun _ => ?_, fun hf hidle => unchanged_iff_not_cuts hf hcmd hidle⟩
  obtain ⟨t', h⟩ := safe_result (dispatch_traced hcmd l s) hrun
  obtain rfl : t = t' := h.record
  exact sameFiles_iff_harmless h

/-- An UPLOAD of one byte to the file `x`. -/
def oneByte : Request := ⟨makeRequest .upload 1 1 0, [], bytes "x"⟩

lemma idle_fresh (d : Disk) : (Store.fresh d).Idle := fun _ _ => rfl

def isRefused : Code (Reply × Bytes) → Bool
  | .pure (.message header _, _) => header.status != StatusCode.created.code
  | _ => false

lemma exists_of_isRefused {p : Code (Reply × Bytes)} (h : isRefused p = true) :
    ∃ r, p = Prog.ofExcept r ∧ ¬ Created r := by
  cases p with
  | pure a =>
    obtain ⟨reply, user'⟩ := a
    cases reply with
    | message header body =>
      refine ⟨.ok _, rfl, ?_⟩
      rintro ⟨_, _, _, heq, hstatus⟩
      cases heq
      exact bne_iff_ne.mp h hstatus
    | streamed => cases h
    | ended => cases h
  | throw e => cases h
  | op o k => cases h

/-- An upload of one byte by bob to a new file, on a connection that ends before it. -/
def lost : Option (Prog.Running Call Answer Exn (Reply × Bytes) ((Local × Fate) × Store)) :=
  follow (fun o m => oblige .atRoot o (m.1.1, m.2)) (followed .atRoot) 100
    (dispatch .little (bytes "bob") oneByte [])
    ((.fresh 0 [] true, .untouched), .fresh (.ofDir [driveRoot 0x43]))

theorem failed_upload_unchanged_new :
    (∃ r m, lost = some (Prog.ofExcept r, m) ∧ ¬ Created r ∧ m.1.2 = .removed ∧
      SameFiles (.fresh (.ofDir [driveRoot 0x43])) m.2) ∧
    ∀ r l' s', Steps (next .atRoot) (dispatch .little (bytes "bob") oneByte [],
      (.fresh 0 [] true, .fresh (.ofDir [driveRoot 0x43]))) (Prog.ofExcept r, (l', s')) →
      ¬ Created r → SameFiles (.fresh (.ofDir [driveRoot 0x43])) s' := by
  obtain ⟨hrecord, hquiet⟩ :=
    failed_upload_unchanged_iff .atRoot .little (bytes "bob") oneByte rfl []
    (.fresh 0 [] true) (.fresh (.ofDir [driveRoot 0x43]))
  refine ⟨?_, (hquiet rfl (idle_fresh _)).mpr fun h => absurd h.old (by decide)⟩
  have hend : lost.any (fun c => isRefused c.1 && decide (c.2.1.2 = .removed)) = true := by
    decide +kernel
  obtain ⟨⟨p, ⟨l, t⟩, s⟩, hrun, hcheck⟩ := (Option.any_eq_true _ _).mp hend
  obtain ⟨hrefused, ht⟩ := Bool.and_eq_true_iff.mp hcheck
  obtain ⟨r, rfl, hr⟩ := exists_of_isRefused hrefused
  have hremoved : t = .removed := of_decide_eq_true ht
  refine ⟨r, _, hrun, hr, hremoved, (hrecord r l t s (steps_of_follow hrun) hr).mpr ?_⟩
  subst hremoved
  exact (by decide : (Disk.ofDir [driveRoot 0x43]).content
    (fileLoc .atRoot (bytes "bob") (bytes "x")) = none)

/-- A disk with one user directory, and an old version of the file `x` in it. -/
def oldVersion : Disk :=
  (Disk.ofDir [driveRoot 0x43, storage, bytes "bob"]).setFile
    [driveRoot 0x43, storage, bytes "bob", bytes "x"] (bytes "old") (by decide) (by decide)

/-- An upload that loses its connection removes the version that was there. -/
theorem failed_upload_changes : ¬ ∀ (env : Env) (host : Endian) (user : Bytes) (req : Request),
    req.header.command = CommandType.upload.code → ∀ (payload : Bytes) (l : Local) (s : Store),
    s.Idle → ∀ r l' s', Steps (next env) (dispatch host user req payload, (l, s))
      (Prog.ofExcept r, (l', s')) → ¬ Created r → SameFiles s s' := by
  intro hall
  have hcut : CutsFile .atRoot (bytes "bob") oneByte (.fresh 0 [] true) (.fresh oldVersion) :=
    ⟨by decide, by decide, Or.inl (by decide), by decide, by decide, rfl, by decide⟩
  obtain ⟨r, l', s', hsteps, hr, hchanged⟩ :=
    changes_of_cutsFile rfl .little rfl [] (idle_fresh oldVersion) hcut
  exact hchanged (hall _ _ _ _ rfl _ _ _ (idle_fresh oldVersion) r l' s' hsteps hr)

end Mtfss.FailedUpload
