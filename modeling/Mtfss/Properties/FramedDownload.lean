import Mtfss.Properties.FileRequests
import Mtfss.Server.Delivery

/-! What a DOWNLOAD sends while other sessions upload, delete and rename files. -/

namespace Mtfss.FramedDownload

open Effects Paths Server Relation LockExclusion FileRequests Delivery

/-- Requests, with the last size that each has been told by the index, its connection when it began,
and the versions of each file that are whole. -/
structure State extends FileRequests.State where
  announced : ℕ → UInt64
  before : ℕ → Conn
  versions : Place → Set Bytes

/-- The versions that a call makes: an upload that has written all that it has announced records a
new one, and a rename takes one along. -/
def gains (cwd : Cwd) (c : State) (i : ℕ) : (o : Call) → Answer o → Place → Set Bytes
  | .addFile _ _ _ _, .ok _, x => {bs | x.content cwd c.requests.shared.disk = some bs ∧
      ∃ n : UInt64, x.user = c.user i ∧ c.task i = some (.put x.file n) ∧ bs.length = n.toNat}
  | .fsRename _ _, .ok _, x => {bs | ∃ y, Renames (c.user i) (c.task i) y x ∧
      y.content cwd c.requests.shared.disk = some bs ∧ bs ∈ c.versions y}
  | _, _, _ => ∅

def told : Monitor Call Answer UInt64
  | .getFileSize _ _, _, n => n
  | _, n, _ => n

namespace State

/-- What a file has in it at the beginning is a version. -/
def idle (cwd : Cwd) (s : Store) : State :=
  ⟨.idle s, fun _ => 0, fun _ => (Local.fresh 0 [] true).conn,
    fun x => {bs | x.content cwd s.disk = some bs}⟩

def after (cwd : Cwd) (c : State) (b : FileRequests.State) : Event → State
  | .begins i l _ _ _ => { c with toState := b, before := Function.update c.before i l.conn }
  | .calls i o r => { c with
      toState := b
      announced := Function.update c.announced i (told o (c.announced i) r)
      versions := fun x => c.versions x ∪ gains cwd c i o r x }

/-- The versions of the user's file. -/
def versionsOf (c : State) (user f : Bytes) : Set Bytes :=
  {bs | ∃ x : Place, x.user = user ∧ x.file = f ∧ bs ∈ c.versions x}

def Downloads (c : State) (i : ℕ) (user : Bytes) (req : Request) : Prop :=
  CommandType.ofCode req.header.command = some .download ∧
    ∃ payload, c.asked i = some (user, req, payload)

end State

def Step (env : Env) (c : State) (e : Event) (c' : State) : Prop :=
  ∃ b, FileRequests.Step env c.toState e b ∧ c' = c.after env.cwd b e

/-- A file that is opened to be sent has the length `n` announced, reading it does not fail, and the
log that is written of an exception, without a lock, does not fail. -/
def serves (cwd : Cwd) (s : Store) (u : Usage) (n : UInt64) : (o : Call) → Answer o → Bool
  | .openIn p, r => !r || (s.disk.content (resolve cwd p)).map List.length == some n.toNat
  | .read p offset count, r =>
    decide (WholeRead (((s.disk.content (resolve cwd p)).getD []).drop offset) count r)
  | .log, r => r.isOk || !u.shared.isEmpty
  | _, _ => true

def Careful (env : Env) (c : State) : Event → Prop
  | .begins _ _ user req payload =>
    (∀ ch, taskOf req payload = some ch → Named user ch.touches) ∧
      (CommandType.ofCode req.header.command = some .download → Named user [req.filename])
  | .calls i o r => ((c.filing i).work.isWriting = true → o.failed r = false) ∧
    ((∃ user req, c.Downloads i user req) →
      serves env.cwd c.requests.shared (c.requests.usage i) (c.announced i) o r = true)

/-- The condition on a run. -/
def CarefulStep (env : Env) (c c' : State) : Prop :=
  ∃ e, Step env c e c' ∧ Careful env c e ∧ ¬ Wraps c.requests c'.requests

/-- How a DOWNLOAD may end that began on the connection `before`: with a refusal still to be sent,
with a header and so many bytes of a whole version, or with the session, whose connection is closed
then, after no more bytes than announced. -/
def Framed (cmd : UInt32) (before : Conn) (versions : Set Bytes) (conn : Conn) :
    Except Exn (Reply × Bytes) → Prop
  | .ok (.message header payload, _) => conn = before ∧ ¬ (Reply.message header payload).Success
  | .ok (.streamed, _) => ∃ n bs, conn = before.emit (okHeader cmd n ++ bs) ∧
      bs.length = n.toNat ∧ bs ∈ versions
  | .ok (.ended _, _) => ∃ n bs xs, conn = before.emit xs ∧
      xs <+: okHeader cmd n ++ bs ∧ bs.length ≤ n.toNat
  | .error _ => False

/-- An upload has written as many bytes as it says. -/
def Filling (content : Place → Option Bytes) (user : Bytes) (task : Option Change)
    (w : Work) : Prop :=
  ∀ n, w = .writing n → ∃ x total, x.user = user ∧ task = some (.put x.file total) ∧
    (content x).map List.length = some n

/-- A file that no upload is writing is whole. -/
abbrev Kept (cwd : Cwd) (user : ℕ → Bytes) (task : ℕ → Option Change) (filing : ℕ → Filing)
    (d : Disk) (versions : Place → Set Bytes) : Prop :=
  Tended user task filing (fun w => w.isWriting = true)
    (fun x => ∀ bs, x.content cwd d = some bs → bs ∈ versions x) (Filling (Place.content cwd d))

section Kept

variable {cwd : Cwd} {user : ℕ → Bytes} {task : ℕ → Option Change} {filing : ℕ → Filing}
variable {d d' : Disk} {versions versions' : Place → Set Bytes} {i : ℕ} {t : Filing}

lemma Filling.congr {content content' : Place → Option Bytes} {u : Bytes}
    {ts : Option Change} {w : Work} (h : Filling content u ts w)
    (hcontent : w.isWriting = true → ∀ x ∈ own u ts, content' x = content x) :
    Filling content' u ts w := by
  rintro n rfl
  obtain ⟨x, total, hu, hts, hx⟩ := h n rfl
  rw [← hcontent rfl x ((own_single hu hts rfl).mpr rfl)] at hx
  exact ⟨x, total, hu, hts, hx⟩

lemma filling_of_not {content : Place → Option Bytes} {u : Bytes} {ts : Option Change} {w : Work}
    (h : w.isWriting = false) : Filling content u ts w := by
  rintro n rfl
  cases h

/-- A call that changes no file. -/
lemma Kept.aside (h : Kept cwd user task filing d versions) (hexcl : Excludes filing)
    (hwork : t.work = (filing i).work ∨ t.work.isWriting = false ∧
      (filing i).work.isWriting = false)
    (hheld : t.work.isWriting = true → ∀ key ∈ (filing i).held, key ∈ t.held)
    (hcontent : ∀ x : Place, x.content cwd d' = x.content cwd d)
    (hversions : ∀ x, versions x ⊆ versions' x) :
    Kept cwd user task (Function.update filing i t) d' versions' := by
  refine Tended.aside h hexcl ?_ hheld (fun x hx bs hbs => ?_) (fun u ts w hw => ?_) ?_
  · obtain hsame | ⟨ht, hi⟩ := hwork
    · rw [hsame]
    · rw [ht, hi]
  · rw [hcontent] at hbs
    exact hversions x (hx bs hbs)
  · exact hw.congr fun _ x _ => hcontent x
  · obtain hsame | ⟨ht, -⟩ := hwork
    · rw [hsame]
      exact (h.midway i).congr fun _ x _ => hcontent x
    · exact filling_of_not ht

/-- A call that changes files that its request has locked. -/
lemma Kept.change (h : Kept cwd user task filing d versions) (hexcl : Excludes filing)
    (hlocked : ∀ x ∈ own (user i) (task i), x.key ∈ (filing i).held)
    (hheld : t.held = (filing i).held)
    (hcontent : ∀ x ∉ own (user i) (task i), x.content cwd d' = x.content cwd d)
    (hversions : ∀ x, versions x ⊆ versions' x)
    (hmid : Filling (Place.content cwd d') (user i) (task i) t.work)
    (hdone : t.work.isWriting = false → ∀ x ∈ own (user i) (task i), ∀ bs,
      x.content cwd d' = some bs → bs ∈ versions' x) :
    Kept cwd user task (Function.update filing i t) d' versions' := by
  refine Tended.change h hexcl hlocked hheld (fun x hx hgood bs hbs => ?_)
    (fun u ts w hout hw => ?_) hmid fun hquit => hdone (Bool.eq_false_iff.mpr hquit)
  · rw [hcontent x hx] at hbs
    exact hversions x (hgood bs hbs)
  · exact hw.congr fun hwriting x hx => hcontent x (hout hwriting x hx)

end Kept

namespace Kept

open Rules

variable {env : Env} {user : ℕ → Bytes} {task : ℕ → Option Change} {filing : ℕ → Filing}
variable {versions versions' : Place → Set Bytes} {i : ℕ} {l l' : Local}
  {s s' : Store} {p q : Bytes}

lemma openOut (h : Kept env.cwd user task filing s.disk versions) (hexcl : Excludes filing)
    (hversions : ∀ x, versions x ⊆ versions' x)
    (hnamed : ∀ ch, task i = some ch → Named (user i) ch.touches)
    (ha : Filing.Allows (user i) (task i) (.openOut p) (filing i))
    (hr : next env (.openOut p) (l, s) true = some (l', s')) :
    Kept env.cwd user task (Function.update filing i { filing i with work := .writing 0 }) s'.disk
      versions' := by
  have hframe : ∀ y ∉ own (user i) (task i), y.content env.cwd s'.disk = y.content env.cwd s.disk :=
    fun y hy => content_frame hnamed ha hr (Or.inl hy)
  obtain ⟨-, f, size, htask, howns⟩ := ha
  obtain ⟨x, hu, rfl, rfl, hheld, hown⟩ := exists_single hnamed htask rfl howns
  obtain ⟨d, hd, hpair⟩ := Option.map_eq_some_iff.mp hr
  cases hpair
  refine h.change hexcl (fun y hy => ?_) rfl hframe hversions ?_ nofun
  · rwa [(hown y).mp hy]
  · rintro _ ⟨⟩
    refine ⟨x, size, hu, htask, ?_⟩
    rw [Place.content, Disk.content, (Disk.openOut_sets hd).at]
    rfl

/-- The file that an upload is writing. -/
lemma written {n : ℕ} {size : UInt64} {f : Bytes}
    (h : Kept env.cwd user task filing s.disk versions)
    (hnamed : ∀ ch, task i = some ch → Named (user i) ch.touches)
    (hwork : (filing i).work = .writing n) (htask : task i = some (.put f size))
    (howns : Filing.Owns (user i) (filing i) f p) :
    ∃ x : Place, x.user = user i ∧ x.file = f ∧ x.key = p ∧
      (∀ y, y ∈ own (user i) (task i) ↔ y = x) ∧
      ∃ bs, x.content env.cwd s.disk = some bs ∧ bs.length = n := by
  obtain ⟨x, hu, hf, hkey, -, hown⟩ := exists_single hnamed htask rfl howns
  obtain ⟨y, total, hyu, hytask, hy⟩ := h.midway i n hwork
  obtain rfl := (hown y).mp ((own_single hyu hytask rfl).mpr rfl)
  exact ⟨y, hu, hf, hkey, hown, Option.map_eq_some_iff.mp hy⟩

lemma write {data : Bytes} {n : ℕ} (h : Kept env.cwd user task filing s.disk versions)
    (hexcl : Excludes filing) (hversions : ∀ x, versions x ⊆ versions' x)
    (hnamed : ∀ ch, task i = some ch → Named (user i) ch.touches)
    (hwork : (filing i).work = .writing n)
    (ha : Filing.Allows (user i) (task i) (.write p data) (filing i))
    (hr : next env (.write p data) (l, s) none = some (l', s')) :
    Kept env.cwd user task (Function.update filing i
      { filing i with work := .writing (n + data.length) }) s'.disk versions' := by
  have hframe : ∀ y ∉ own (user i) (task i), y.content env.cwd s'.disk = y.content env.cwd s.disk :=
    fun y hy => content_frame hnamed ha hr (Or.inl hy)
  obtain ⟨hwriting, f, size, htask, howns⟩ := ha
  obtain ⟨x, hu, rfl, rfl, hown, c, hc, hlen⟩ := h.written hnamed hwork htask howns
  cases hr
  have hsets := Disk.modify_sets (Disk.content_eq_some.mp hc) (· ++ data)
  refine h.change hexcl (h.locked_own hwriting) rfl hframe hversions ?_ nofun
  rintro _ ⟨⟩
  refine ⟨x, size, hu, htask, ?_⟩
  rw [Place.content, Disk.content, hsets.at]
  simp [hlen]

/-- After a file has been removed there is nothing in its place. -/
lemma remove {r : Except Exn Bool} {w : Work} (h : Kept env.cwd user task filing s.disk versions)
    (hexcl : Excludes filing) (hversions : ∀ x, versions x ⊆ versions' x)
    (hnamed : ∀ ch, task i = some ch → Named (user i) ch.touches)
    (ha : Filing.Allows (user i) (task i) (.fsRemove p) (filing i))
    (hok : (Call.fsRemove p).failed r = false) (hw : w.isWriting = false)
    (hr : next env (.fsRemove p) (l, s) r = some (l', s')) :
    Kept env.cwd user task (Function.update filing i { filing i with work := w }) s'.disk
      versions' := by
  have hframe : ∀ y ∉ own (user i) (task i), y.content env.cwd s'.disk = y.content env.cwd s.disk :=
    fun y hy => content_frame hnamed ha hr (Or.inl hy)
  obtain ⟨ch, f, htask, hch, howns⟩ : ∃ ch f, task i = some ch ∧ ch.touches = [f] ∧
      Filing.Owns (user i) (filing i) f p := by
    obtain ⟨-, f, size, htask, howns⟩ | ⟨-, f, htask, howns⟩ := ha
    · exact ⟨_, f, htask, rfl, howns⟩
    · exact ⟨_, f, htask, rfl, howns⟩
  obtain ⟨x, hu, rfl, rfl, hheld, hown⟩ := exists_single hnamed htask hch howns
  have hgone : x.content env.cwd s'.disk = none := by
    rw [next, orThrow_eq_some] at hr
    obtain ⟨b, rfl, hb⟩ | ⟨-, rfl, -⟩ := hr
    swap
    · cases hok
    obtain ⟨⟨b', d⟩, hd, hanswer⟩ := Option.bind_eq_some_iff.mp hb
    obtain ⟨rfl, hpair⟩ := answer_eq_some.mp hanswer
    cases hpair
    cases b with
    | false =>
      obtain ⟨rfl, hnone⟩ := Disk.remove_false hd
      rw [Place.content, Disk.content, hnone]
    | true => rw [Place.content, Disk.content, (Disk.remove_sets hd).at]
  refine h.change hexcl (fun y hy => ?_) rfl hframe hversions (filling_of_not hw)
    fun _ y hy bs hbs => ?_
  · rwa [(hown y).mp hy]
  · rw [(hown y).mp hy, hgone] at hbs
    cases hbs

lemma rename (h : Kept env.cwd user task filing s.disk versions) (hexcl : Excludes filing)
    (hversions : ∀ x, versions x ⊆ versions' x)
    (hgains : ∀ x y, Renames (user i) (task i) x y → ∀ bs ∈ versions x,
      x.content env.cwd s.disk = some bs → bs ∈ versions' y)
    (hnamed : ∀ ch, task i = some ch → Named (user i) ch.touches)
    (ha : Filing.Allows (user i) (task i) (.fsRename p q) (filing i))
    (hr : next env (.fsRename p q) (l, s) (.ok ()) = some (l', s')) :
    Kept env.cwd user task (Function.update filing i { filing i with work := .moved }) s'.disk
      versions' := by
  have hframe : ∀ y ∉ own (user i) (task i), y.content env.cwd s'.disk = y.content env.cwd s.disk :=
    fun y hy => content_frame hnamed ha hr (Or.inl hy)
  obtain ⟨hwork, hpq, f, g, htask, hp, hq⟩ := ha
  obtain ⟨x, y, hrenames, rfl, rfl, hxheld, hyheld⟩ := exists_renames hnamed htask hpq hp hq
  obtain ⟨d, hd, hpair⟩ := Option.map_eq_some_iff.mp hr
  cases hpair
  obtain ⟨-, hmoves⟩ := Disk.rename_moves (fun he => hrenames.apart (Place.eq_of_loc he)) hd
  have hidle : ¬ (filing i).work.isWriting = true := by rw [hwork]; nofun
  refine h.change hexcl (fun z hz => ?_) rfl hframe hversions (filling_of_not rfl)
    fun _ z hz bs hbs => ?_
  · obtain rfl | rfl := hrenames.mem_iff.mp hz
    · exact hxheld
    · exact hyheld
  · rw [Place.content_moves hmoves hrenames.apart] at hbs
    obtain rfl | rfl := hrenames.mem_iff.mp hz
    · rw [if_neg hrenames.apart, if_pos rfl] at hbs
      cases hbs
    · rw [if_pos rfl] at hbs
      exact hgains x z hrenames bs (h.good_held hexcl hidle hxheld bs hbs) hbs

/-- An upload that has written all that it has announced has made a version. -/
lemma record {f : Bytes} {n : UInt64} (h : Kept env.cwd user task filing s.disk versions)
    (hexcl : Excludes filing) (hversions : ∀ x, versions x ⊆ versions' x)
    (hgains : ∀ x : Place, x.user = user i → task i = some (.put x.file n) → ∀ bs,
      x.content env.cwd s.disk = some bs → bs.length = n.toNat → bs ∈ versions' x)
    (htask : task i = some (.put f n)) (hwork : (filing i).work = .writing n.toNat) :
    Kept env.cwd user task (Function.update filing i { filing i with work := .clear }) s.disk
      versions' := by
  obtain ⟨x, total, hu, hxtask, hx⟩ := h.midway i _ hwork
  cases htask.symm.trans hxtask
  have hown : ∀ {y}, y ∈ own (user i) (task i) ↔ y = x := own_single hu htask rfl
  refine h.change hexcl (h.locked_own (by rw [hwork]; rfl)) rfl (fun _ _ => rfl) hversions
    (filling_of_not rfl) fun _ y hy bs hbs => ?_
  obtain rfl := hown.mp hy
  rw [hbs] at hx
  exact hgains y hu htask bs hbs (Option.some.inj hx)

end Kept

abbrev KeptIn (cwd : Cwd) (c : FileRequests.State) (filing : ℕ → Filing) (d : Disk)
    (versions : Place → Set Bytes) : Prop :=
  Kept cwd c.user c.task filing d versions

section Call

open Rules

variable {env : Env} {c : State} {i : ℕ} {o : Call} {r : Answer o} {l l' : Local} {s' : Store}

lemma kept_call (h : KeptIn env.cwd c.toState c.filing c.requests.shared.disk c.versions)
    (hexcl : Excludes c.filing) (hnamed : ∀ ch, c.task i = some ch → Named (c.user i) ch.touches)
    (ha : Filing.Allows (c.user i) (c.task i) o (c.filing i))
    (hok : (c.filing i).work.isWriting = true → o.failed r = false)
    (hr : next env o (l, c.requests.shared) r = some (l', s')) :
    KeptIn env.cwd c.toState (Function.update c.filing i (Filing.after o (c.filing i) r)) s'.disk
      (fun x => c.versions x ∪ gains env.cwd c i o r x) := by
  have hversions : ∀ x, c.versions x ⊆ c.versions x ∪ gains env.cwd c i o r x :=
    fun x => Set.subset_union_left
  have hsame : (∀ x : Place, x.content env.cwd s'.disk = x.content env.cwd c.requests.shared.disk) →
      ((Filing.after o (c.filing i) r).work = (c.filing i).work ∨
        (Filing.after o (c.filing i) r).work.isWriting = false ∧
          (c.filing i).work.isWriting = false) →
      ((Filing.after o (c.filing i) r).work.isWriting = true →
        ∀ key ∈ (c.filing i).held, key ∈ (Filing.after o (c.filing i) r).held) →
      KeptIn env.cwd c.toState (Function.update c.filing i (Filing.after o (c.filing i) r)) s'.disk
        (fun x => c.versions x ∪ gains env.cwd c i o r x) :=
    fun hcontent hwork hheld => h.aside hexcl hwork hheld hcontent hversions
  have hdisk : o.writesDisk = false → ∀ x : Place,
      x.content env.cwd s'.disk = x.content env.cwd c.requests.shared.disk := by
    intro ho x
    rw [next_disk hr ho]
  cases o with
  | lock key => exact hsame (hdisk rfl) (Or.inl rfl) fun _ k hk => List.mem_cons_of_mem _ hk
  | lockBoth key₁ key₂ =>
    exact hsame (hdisk rfl) (Or.inl rfl) fun _ k hk =>
      List.mem_cons_of_mem _ (List.mem_cons_of_mem _ hk)
  | unlock key =>
    refine hsame (hdisk rfl) (Or.inl rfl) fun hwriting => ?_
    have hclear : (c.filing i).work = .clear := ha
    rw [Filing.after, hclear] at hwriting
    cases hwriting
  | createDirectories p =>
    refine hsame (fun x => ?_) (Or.inl rfl) fun _ k hk => hk
    rw [next, orThrow_eq_some] at hr
    obtain ⟨-, rfl, hmap⟩ | ⟨-, rfl, hpair⟩ := hr
    · obtain ⟨d, hd, hpair⟩ := Option.map_eq_some_iff.mp hmap
      cases hpair
      exact (Disk.createDirectories_adds hd).content _
    · cases hpair
      rfl
  | openOut p =>
    cases r with
    | true => exact h.openOut hexcl hversions hnamed ha hr
    | false =>
      simp only [next, Bool.false_eq_true, if_false, Option.ite_none_right_eq_some,
        Option.some.injEq, Prod.mk.injEq] at hr
      obtain ⟨-, -, rfl⟩ := hr
      exact hsame (fun _ => rfl) (Or.inl rfl) fun _ k hk => hk
  | write p data =>
    obtain ⟨n, hwork⟩ := Work.isWriting_iff.mp ha.1
    have hok := hok ha.1
    cases r with
    | some k => cases hok
    | none =>
      rw [Filing.after, hwork]
      exact h.write hexcl hversions hnamed hwork ha hr
  | closeOut p =>
    have hok := hok ha.1
    cases r with
    | some k => cases hok
    | none =>
      cases hr
      exact hsame (fun _ => rfl) (Or.inl rfl) fun _ k hk => hk
  | fsRemove p =>
    by_cases hfailed : (Call.fsRemove p).failed r = false
    · have hquit : ((c.filing i).work.erased r).isWriting = false := by
        cases (c.filing i).work <;> rcases r with _ | _ | _ <;> rfl
      exact h.remove hexcl hversions hnamed ha hfailed hquit hr
    · have hidle : (c.filing i).work.isWriting = false := by
        by_contra hwriting
        exact hfailed (hok (eq_true_of_ne_false hwriting))
      rcases r with e | b
      · rw [next, orThrow_eq_some] at hr
        obtain ⟨_, ⟨⟩, -⟩ | ⟨-, -, hpair⟩ := hr
        cases hpair
        refine hsame (fun _ => rfl) (Or.inr ⟨?_, hidle⟩) fun _ k hk => hk
        cases hw : (c.filing i).work <;> rw [Filing.after, hw] <;> rfl
      · exact (hfailed rfl).elim
  | fsRename p q =>
    rcases r with e | _
    · rw [next, orThrow_eq_some] at hr
      obtain ⟨_, ⟨⟩, -⟩ | ⟨-, -, hpair⟩ := hr
      cases hpair
      exact hsame (fun _ => rfl) (Or.inl ha.1.symm) fun _ k hk => hk
    · exact h.rename hexcl hversions
        (fun x y hxy bs hbs hc => Or.inr ⟨x, hxy, hc, hbs⟩) hnamed ha hr
  | getFileSize dir f =>
    refine hsame (hdisk rfl) ?_ fun _ k hk => hk
    cases hw : (c.filing i).work <;> rw [Filing.after, hw] <;>
      first | exact Or.inl rfl | exact Or.inr ⟨rfl, rfl⟩
  | removeFile dir f =>
    refine hsame (hdisk rfl) (Or.inr ?_) fun _ k hk => hk
    obtain ⟨-, ⟨-, hwork⟩ | ⟨g, n, -, hwork⟩⟩ := ha <;> rw [Filing.after, hwork] <;>
      cases r <;> exact ⟨rfl, rfl⟩
  | addFile dir f n time =>
    obtain ⟨-, ⟨htask, hwork⟩ | ⟨g, -, hwork⟩⟩ := ha
    · have hok := hok (by rw [hwork]; rfl)
      rcases r with e | _
      · cases hok
      · cases hr
        exact h.record hexcl hversions
          (fun x hu hx bs hc hlen => Or.inr ⟨hc, n, hu, hx, hlen⟩) htask
          hwork
    · refine hsame (hdisk rfl) (Or.inr ?_) fun _ k hk => hk
      rw [Filing.after, hwork]
      exact ⟨rfl, rfl⟩
  | _ => exact hsame (hdisk rfl) (Or.inl rfl) fun _ k hk => hk

end Call

/-- How far a DOWNLOAD is, as a delivery of the file that it has locked. -/
structure Attends (env : Env) (c : State) (i : ℕ) (l : Local) (u : Usage) (user f : Bytes)
    (t : Delivery) : Prop where
  conn : t.conn = l.conn
  announced : t.announced = c.announced i
  locked : t.sharing = true ∨ t.opened = true → t.locked = true
  keys : u.shared = if t.sharing = true then [filePath user f] else []
  shared : t.sharing = true → ∃ x : Place, x.user = user ∧ x.file = f ∧
    x.content env.cwd c.requests.shared.disk = t.file
  opened : t.opened = true → ∀ bs, t.file = some bs → bs ∈ c.versionsOf user f

/-- The rest of a DOWNLOAD ends as it should, whatever is in the file when it will lock it. -/
def Promises (c : State) (i : ℕ) (user : Bytes) (req : Request) (p : Code (Reply × Bytes))
    (t : Delivery) : Prop :=
  ∀ file, (t.locked = true → file = t.file) → Delivers user req.filename p
    (Delivered req.header.command (c.before i)) { t with file := file }

structure Inv (env : Env) (c : State) : Prop extends Tracked c.toState where
  kept : KeptIn env.cwd c.toState c.filing c.requests.shared.disk c.versions
  plain : ∀ i user req, c.Downloads i user req → Named user [req.filename]
  promised : ∀ i p l u user req, c.Downloads i user req → c.requests.thread i = some (p, l, u) →
    ∃ t, Attends env c i l u user req.filename t ∧ Promises c i user req p t

section Download

variable {env : Env} {c c' : State} {i j : ℕ} {l l' : Local} {u u' : Usage} {s' : Store}
variable {t t' : Delivery} {user f : Bytes} {req : Request} {o : Call} {r : Answer o}
variable {p : Code (Reply × Bytes)} {k : Answer o → Code (Reply × Bytes)}

lemma State.Downloads.task (h : c.Downloads i user req) : c.task i = none := by
  obtain ⟨hcmd, payload, hasked⟩ := h
  simp [FileRequests.State.task, hasked, taskOf, hcmd]

lemma Promises.next (h : Promises c i user req (.op o k) t) (hlocked : t'.locked = t.locked)
    (hfile : t'.file = t.file) (hbefore : c'.before i = c.before i)
    (hnext : ∀ file, (t.locked = true → file = t.file) →
      Delivery.next o { t with file := file } r = some { t' with file := file }) :
    Promises c' i user req (k r) t' := by
  intro file hf
  rw [hlocked, hfile] at hf
  rw [hbefore]
  exact (h file hf).2 r _ (hnext file hf)

lemma Promises.lock {key : Bytes} {k : Answer (.lockShared key) → Code (Reply × Bytes)}
    (h : Promises c i user req (.op (.lockShared key) k) t) (hbefore : c'.before i = c.before i)
    (file : Option Bytes) :
    Promises c' i user req (k ()) { t with file := file, locked := true, sharing := true } := by
  have hlocked : t.locked = false := (h t.file fun _ => rfl).1.2.2.2
  intro file' hf
  obtain rfl : file' = file := hf rfl
  rw [hbefore]
  exact (h file' (by simp [hlocked])).2 () _ rfl

lemma Promises.ended {r : Except Exn (Reply × Bytes)} (h : Promises c i user req (.ofExcept r) t)
    (ha : Attends env c i l u user req.filename t) :
    Framed req.header.command (c.before i) (c.versionsOf user req.filename) l.conn r := by
  have hend : Delivered req.header.command (c.before i) r t :=
    (safe_ofExcept r).mp (h t.file fun _ => rfl)
  rw [← ha.conn]
  rcases r with e | ⟨reply, user'⟩
  · exact hend
  cases reply with
  | message header payload => exact hend
  | streamed =>
    obtain ⟨hopened, bs, hfile, hlen, hconn⟩ := hend
    exact ⟨t.announced, bs, hconn, hlen, ha.opened hopened bs hfile⟩
  | ended exit =>
    obtain ⟨-, xs, bs, hconn, hxs, hle⟩ := hend
    exact ⟨t.announced, bs, xs, hconn, hxs, hle⟩

/-- What a DOWNLOAD has locked is a whole version of the file. -/
lemma Inv.version (h : Inv env c) {x : Place} (hd : c.Downloads i user req)
    (hx : x.key ∈ (c.requests.usage i).shared) {bs : Bytes}
    (hbs : x.content env.cwd c.requests.shared.disk = some bs) : bs ∈ c.versions x := by
  refine h.kept.rest x (fun j hj => ?_) bs hbs
  by_cases hji : j = i
  · subst hji
    obtain ⟨-, ch, hch, -⟩ := hj.1
    rw [hd.task] at hch
    cases hch
  · exact (h.apart hji (h.kept.locked j hj)).2 hx

lemma Attends.mem_shared (ha : Attends env c i l u user f t) (hs : t.sharing = true) :
    filePath user f ∈ u.shared := by
  rw [ha.keys, if_pos hs]
  exact List.mem_singleton_self _

def isSharing : Call → Bool
  | .lockShared _ | .unlockShared _ => true
  | _ => false

lemma shared_same (ho : isSharing o = false) (r : Answer o) :
    (Usage.after o u r).shared = u.shared := by
  by_cases hlock : o.isLock = false
  · exact (Usage.after_of_not_lock hlock r).2.1
  · cases o with
    | acquireLockRef key => cases r <;> rfl
    | lockShared key => cases ho
    | unlockShared key => cases ho
    | _ => first | exact (hlock rfl).elim | rfl

lemma Attends.change (ha : Attends env c i l u user f t) (hconn : t'.conn = l'.conn)
    (hannounced : t'.announced = c'.announced i) (hlocked : t'.locked = t.locked)
    (hfile : t'.file = t.file) (hsharing : t'.sharing = t.sharing) (hkeys : u'.shared = u.shared)
    (hopened : t'.opened = true → t.opened = true ∨
      t.locked = true ∧ ∀ bs, t.file = some bs → bs ∈ c.versionsOf user f)
    (hcontent : ∀ x : Place, x.key ∈ u.shared → x.content env.cwd c'.requests.shared.disk =
      x.content env.cwd c.requests.shared.disk)
    (hversions : ∀ x, c.versions x ⊆ c'.versions x) : Attends env c' i l' u' user f t' where
  conn := hconn
  announced := hannounced
  locked hor := by
    rw [hlocked]
    obtain hs | ho := hor
    · exact ha.locked (Or.inl (hsharing ▸ hs))
    · exact (hopened ho).elim (fun h => ha.locked (Or.inr h)) And.left
  keys := by rw [hkeys, hsharing, ha.keys]
  shared hs := by
    rw [hsharing] at hs
    obtain ⟨x, rfl, rfl, hbs⟩ := ha.shared hs
    exact ⟨x, rfl, rfl, by rw [hcontent x (ha.mem_shared hs), hfile, hbs]⟩
  opened ho bs hbs := by
    rw [hfile] at hbs
    have hold : bs ∈ c.versionsOf user f :=
      (hopened ho).elim (fun h => ha.opened h bs hbs) fun h => h.2 bs hbs
    obtain ⟨x, hu, hf, hx⟩ := hold
    exact ⟨x, hu, hf, hversions x hx⟩

/-- A DOWNLOAD makes its next call. -/
lemma Inv.deliver (h : Inv env c) (hd : c.Downloads i user req)
    (hi : c.requests.thread i = some (.op o k, l, u))
    (hr : watched env o ((l, u), c.requests.shared) r = some ((l', u'), s'))
    (hserves : serves env.cwd c.requests.shared u (c.announced i) o r = true)
    (hc' : c' = c.after env.cwd (c.toState.advance i o r (k r, l', u') s') (.calls i o r)) :
    ∃ t', Attends env c' i l' u' user req.filename t' ∧ Promises c' i user req (k r) t' := by
  obtain ⟨t, ha, hp⟩ := h.promised i _ l u user req hd hi
  have hu : c.requests.usage i = u := by simp [Requests.usage, hi]
  have hdisk : ∀ x : Place, x.content env.cwd s'.disk = x.content env.cwd
      c.requests.shared.disk := by
    refine fun x => h.toTracked.content_kept hi hr (Or.inl ?_)
    rintro ⟨-, ch, hch, -⟩
    rw [hd.task] at hch
    cases hch
  obtain ⟨hnext, rfl⟩ := Monitor.watch_eq_some.mp hr
  have hannounced : c'.announced i = told o (c.announced i) r := by
    rw [hc']
    exact Function.update_self _ _ _
  have hversions : ∀ x, c.versions x ⊆ c'.versions x := by
    rw [hc']
    exact fun x => Set.subset_union_left
  have hbefore : c'.before i = c.before i := by rw [hc']; rfl
  have hcontent : ∀ x : Place, x.key ∈ u.shared → x.content env.cwd c'.requests.shared.disk =
      x.content env.cwd c.requests.shared.disk := by
    rw [hc']
    exact fun x _ => hdisk x
  have hkeep : isSharing o = false → l'.conn = l.conn → told o (c.announced i) r = c.announced i →
      (∀ file, (t.locked = true → file = t.file) →
        Delivery.next o { t with file := file } r = some { t with file := file }) →
      ∃ t', Attends env c' i l' (Usage.after o u r) user req.filename t' ∧
        Promises c' i user req (k r) t' := by
    intro ho hconn htold hdelivers
    refine ⟨t, ha.change (ha.conn.trans hconn.symm) ?_ rfl rfl rfl (shared_same ho r)
      Or.inl hcontent hversions, hp.next rfl rfl hbefore hdelivers⟩
    rw [hannounced, htold, ha.announced]
  cases o with
  | recv count => exact (hp t.file fun _ => rfl).1.elim
  | closesocket => exact (hp t.file fun _ => rfl).1.elim
  | send data count =>
    obtain ⟨conn, hsend, hpair⟩ := Option.map_eq_some_iff.mp hnext
    cases hpair
    refine ⟨{ t with conn := conn }, ha.change rfl (ha.announced.trans hannounced.symm) rfl rfl rfl
      (shared_same rfl r) Or.inl hcontent hversions, hp.next rfl rfl hbefore fun file _ => ?_⟩
    rw [← ha.conn] at hsend
    exact Option.map_eq_some_iff.mpr ⟨conn, hsend, rfl⟩
  | getFileSize dir f =>
    exact ⟨{ t with announced := r }, ha.change (ha.conn.trans (next_conn hnext rfl).symm)
      hannounced.symm rfl rfl rfl (shared_same rfl r) Or.inl hcontent hversions,
      hp.next rfl rfl hbefore fun _ _ => rfl⟩
  | lockShared key =>
    obtain ⟨hne, hvalid, rfl, hfree⟩ := (hp t.file fun _ => rfl).1
    obtain ⟨hplain, hnames⟩ := (h.plain i user req hd).resolve_left hne
    have hname : IsPlain req.filename := hnames _ (List.mem_singleton_self _) hvalid
    have hapart : ¬ (t.sharing = true ∨ t.opened = true) := by
      intro hor
      rw [ha.locked hor] at hfree
      cases hfree
    obtain ⟨hsharing, hopened⟩ := not_or.mp hapart
    let x : Place := ⟨user, req.filename, hplain, hname⟩
    refine ⟨_, ?_, hp.lock hbefore (x.content env.cwd s'.disk)⟩
    refine ⟨ha.conn.trans (next_conn hnext rfl).symm,
      ha.announced.trans hannounced.symm, fun _ => rfl,
      ?_, fun _ => ⟨x, rfl, rfl, ?_⟩, fun ho => (hopened ho).elim⟩
    · rw [if_pos rfl, Usage.after, ha.keys, if_neg hsharing]
    · rw [hc']
      rfl
  | unlockShared key =>
    obtain rfl : key = filePath user req.filename := (hp t.file fun _ => rfl).1
    refine ⟨{ t with sharing := false }, ⟨ha.conn.trans (next_conn hnext rfl).symm,
      ha.announced.trans hannounced.symm, fun hor => ha.locked (hor.imp (by simp) id), ?_, by simp,
      fun ho bs hbs => ?_⟩, hp.next rfl rfl hbefore fun _ _ => rfl⟩
    · rw [if_neg (by simp), Usage.after, ha.keys]
      split <;> simp
    · obtain ⟨x, hxu, hxf, hx⟩ := ha.opened ho bs hbs
      exact ⟨x, hxu, hxf, hversions x hx⟩
  | openIn p =>
    cases r with
    | false => exact hkeep rfl (next_conn hnext rfl) rfl fun _ _ => rfl
    | true =>
      obtain ⟨rfl, hs⟩ := (hp t.file fun _ => rfl).1
      obtain ⟨x, rfl, hxf, hfile⟩ := ha.shared hs
      have hkey : filePath x.user req.filename = x.key := by rw [Place.key, hxf]
      have hlen : t.file.map List.length = some t.announced.toNat := by
        rw [← hfile, ha.announced, Place.content, ← hkey]
        exact beq_iff_eq.mp hserves
      have hshared : x.key ∈ (c.requests.usage i).shared := by
        rw [hu, ← hkey]
        exact ha.mem_shared hs
      refine ⟨{ t with opened := true }, ha.change (ha.conn.trans (next_conn hnext rfl).symm)
        (ha.announced.trans hannounced.symm) rfl rfl rfl (shared_same (o := .openIn _) rfl true)
        (fun _ => Or.inr ⟨ha.locked (Or.inl hs), fun bs hbs => ?_⟩) hcontent hversions,
        hp.next rfl rfl hbefore fun file hf => ?_⟩
      · exact ⟨x, rfl, hxf, h.version hd hshared (hfile.trans hbs)⟩
      · rw [hf (ha.locked (Or.inl hs))]
        exact if_pos hlen
  | read p offset count =>
    refine hkeep rfl (next_conn hnext rfl) rfl fun file hf => ?_
    obtain ⟨rfl, hs⟩ := (hp t.file fun _ => rfl).1
    obtain ⟨x, rfl, hxf, hfile⟩ := ha.shared hs
    have hkey : filePath x.user req.filename = x.key := by rw [Place.key, hxf]
    rw [hf (ha.locked (Or.inl hs)), ← hfile, Place.content, ← hkey]
    exact if_pos (of_decide_eq_true hserves)
  | pathAppend p q =>
    refine hkeep rfl (next_conn hnext rfl) rfl fun file _ => ?_
    cases r with
    | error e => rfl
    | ok x => exact if_pos (next_apt hnext x rfl)
  | log =>
    refine hkeep rfl (next_conn hnext rfl) rfl fun file _ => if_pos ?_
    obtain hok | hshared := Bool.or_eq_true_iff.mp hserves
    · exact Or.inl hok
    · refine Or.inr ?_
      by_contra hfree
      rw [ha.keys, if_neg hfree] at hshared
      cases hshared
  | _ => exact hkeep rfl (next_conn hnext rfl) rfl fun _ _ => rfl

/-- A DOWNLOAD waits while another request makes a call. -/
lemma Inv.wait (h : Inv env c) (hd : c.Downloads i user req) (hji : j ≠ i)
    (hi : c.requests.thread i = some (p, l, u)) {lj lj' : Local} {uj uj' : Usage}
    (hj : c.requests.thread j = some (.op o k, lj, uj))
    (hr : watched env o ((lj, uj), c.requests.shared) r = some ((lj', uj'), s'))
    (hc' : c' = c.after env.cwd (c.toState.advance j o r (k r, lj', uj') s') (.calls j o r)) :
    ∃ t', Attends env c' i l u user req.filename t' ∧ Promises c' i user req p t' := by
  obtain ⟨t, ha, hp⟩ := h.promised i _ l u user req hd hi
  have hu : c.requests.usage i = u := by simp [Requests.usage, hi]
  subst hc'
  refine ⟨t, ha.change ha.conn (ha.announced.trans ?_) rfl rfl rfl rfl Or.inl (fun x hx => ?_)
    (fun x => Set.subset_union_left), hp⟩
  · exact (Function.update_of_ne hji.symm _ _).symm
  · refine h.toTracked.content_kept hj hr (Or.inr fun hheld => ?_)
    exact (h.apart hji hheld).2 (by rwa [hu])

lemma kept_idle (s : Store) : KeptIn env.cwd (.idle s) (fun _ => .start) s.disk
    (fun x => {bs | x.content env.cwd s.disk = some bs}) where
  locked _ _ hx := by cases hx.2
  midway _ := filling_of_not rfl
  rest _ _ _ h := h

lemma inv_idle {s : Store} (hs : s.locks = .initial) : Inv env (.idle env.cwd s) where
  toTracked := tracked_idle hs
  kept := kept_idle s
  plain := by rintro _ _ _ ⟨-, _, ⟨⟩⟩
  promised := by rintro _ _ _ _ _ _ ⟨-, _, ⟨⟩⟩

end Download

section Run

variable {env : Env} {c c' : State} {i : ℕ} {l : Local}

lemma Careful.followed {e : Event} (h : Careful env c e) : e.Followed c.toState := by
  cases e <;> exact h.1

lemma kept_begin (h : Inv env c) {t : Code (Reply × Bytes) × Local × Usage}
    {a : Bytes × Request × Bytes} (hi : c.requests.thread i = none) :
    KeptIn env.cwd (c.toState.begin i t a) c.filing c.requests.shared.disk c.versions := by
  have hidle : (c.filing i).work.isWriting = false := by rw [(h.fresh i hi).1]; rfl
  have hkept : Tended c.user c.task c.filing (fun w => w.isWriting = true) _ _ := h.kept
  refine hkept.start (i := i) (Bool.eq_false_iff.mp hidle) (filling_of_not hidle) fun j hj => ?_
  rw [State.begin_user, State.begin_task, if_neg hj, if_neg hj]
  exact ⟨rfl, rfl⟩

/-- A request begins. -/
lemma Inv.begin (h : Inv env c) (host : Endian) (user : Bytes) (req : Request) (payload : Bytes)
    (hi : c.requests.thread i = none)
    (hnamed : CommandType.ofCode req.header.command = some .download → Named user [req.filename])
    (hc' : c' = c.after env.cwd
      (c.toState.begin i (dispatch host user req payload, l, .start) (user, req, payload))
      (.begins i l user req payload)) (htracked : Tracked c'.toState) : Inv env c' := by
  have hasked : c'.asked = Function.update c.asked i (some (user, req, payload)) := by rw [hc']; rfl
  have hbefore : c'.before = Function.update c.before i l.conn := by rw [hc']; rfl
  have hthread : c'.requests.thread =
      Function.update c.requests.thread i (some (dispatch host user req payload, l, .start)) := by
    rw [hc']
    rfl
  have hold : ∀ {j user' req'}, c'.Downloads j user' req' → j ≠ i → c.Downloads j user' req' := by
    rintro j user' req' ⟨hcmd, payload', ha⟩ hji
    rw [hasked, Function.update_of_ne hji] at ha
    exact ⟨hcmd, payload', ha⟩
  have hnew : ∀ {user' req'}, c'.Downloads i user' req' → user' = user ∧ req' = req := by
    rintro user' req' ⟨hcmd, payload', ha⟩
    rw [hasked, Function.update_self] at ha
    cases ha
    exact ⟨rfl, rfl⟩
  refine ⟨htracked, ?_, fun j user' req' hd => ?_, fun j p l' u user' req' hd hj => ?_⟩
  · rw [hc']
    exact kept_begin h hi
  · by_cases hji : j = i
    · subst hji
      obtain ⟨rfl, rfl⟩ := hnew hd
      exact hnamed hd.1
    · exact h.plain j user' req' (hold hd hji)
  · rw [hthread] at hj
    by_cases hji : j = i
    · subst hji
      obtain ⟨rfl, rfl⟩ := hnew hd
      rw [Function.update_self] at hj
      cases hj
      refine ⟨⟨l.conn, c'.announced j, none, false, false, false⟩,
        ⟨rfl, rfl, ?_, rfl, nofun, nofun⟩, ?_⟩
      · rintro (hs | ho)
        · cases hs
        · cases ho
      · intro file _
        rw [hbefore, Function.update_self]
        exact delivers_dispatch host hd.1 rfl rfl rfl
    · rw [Function.update_of_ne hji] at hj
      obtain ⟨t, ha, hp⟩ := h.promised j p l' u user' req' (hold hd hji) hj
      subst hc'
      refine ⟨t, ⟨ha.conn, ha.announced, ha.locked, ha.keys, ha.shared, ha.opened⟩, ?_⟩
      intro file hf
      rw [hbefore, Function.update_of_ne hji]
      exact hp file hf

lemma Inv.step (h : Inv env c) (hs : CarefulStep env c c') : Inv env c' := by
  obtain ⟨e, ⟨b, hstep, hc'⟩, hcareful, hcounts⟩ := hs
  have htracked : Tracked c'.toState := by
    subst hc'
    cases e <;> exact h.toTracked.step hstep hcareful.followed hcounts
  cases hstep with
  | start host user req payload hi hl =>
      exact h.begin host user req payload hi hcareful.2 hc' htracked
  | @call i o k l u l' u' s' r hi hr =>
    have hasked : c'.asked = c.asked := by rw [hc']; rfl
    have hthread : c'.requests.thread = Function.update c.requests.thread i
        (some (k r, l', u')) := by
      rw [hc']
      rfl
    have hold : ∀ {j user req}, c'.Downloads j user req → c.Downloads j user req := by
      rintro j user req ⟨hcmd, payload, ha⟩
      rw [hasked] at ha
      exact ⟨hcmd, payload, ha⟩
    refine ⟨htracked, ?_, fun j user req hd => h.plain j user req (hold hd),
      fun j p lj uj user req hd hj => ?_⟩
    · rw [hc']
      exact kept_call h.kept h.excludes (h.named i) (h.call_allowed hi) hcareful.1
        (Monitor.watch_eq_some.mp hr).1
    · rw [hthread] at hj
      by_cases hji : j = i
      · subst hji
        rw [Function.update_self] at hj
        cases hj
        have hu : c.requests.usage j = u := by simp [Requests.usage, hi]
        exact h.deliver (hold hd) hi hr (hu ▸ hcareful.2 ⟨user, req, hold hd⟩) hc'
      · rw [Function.update_of_ne hji] at hj
        exact h.wait (hold hd) (Ne.symm hji) hj hi hr hc'

end Run

/-- In a run without the failures that mix them, every DOWNLOAD sends a header with one whole
version of the file, or ends its session. -/
theorem framed_of_careful (env : Env) (s : Store) (hs : s.locks = .initial) (c : State)
    (h : ReflTransGen (CarefulStep env) (.idle env.cwd s) c) (i : ℕ) (user : Bytes) (req : Request)
    (hd : c.Downloads i user req) (r : Except Exn (Reply × Bytes)) (l : Local) (u : Usage)
    (hend : c.requests.thread i = some (.ofExcept r, l, u)) :
    Framed req.header.command (c.before i) (c.versionsOf user req.filename) l.conn r := by
  have hinv : Inv env c := by
    clear hd hend
    induction h with
    | refl => exact inv_idle hs
    | tail _ hstep ih => exact ih.step hstep
  obtain ⟨t, ha, hp⟩ := hinv.promised i _ l u user req hd hend
  exact hp.ended ha

/-- A step, and a careful one if it has to be. -/
def PlayStep (env : Env) (strict : Bool) (c c' : State) : Prop :=
  ∃ e, Step env c e c' ∧ (strict = true → Careful env c e ∧ ¬ Wraps c.requests c'.requests)

/-- The calls of one request, which has been told the size `n`. -/
def playing (env : Env) (strict : Bool) : Next Call Answer (((Local × Usage) × UInt64) × Store) :=
  fun o m r =>
    if strict = true → o.failed r = false ∧ serves env.cwd m.2 m.1.1.2 m.1.2 o r = true
    then told.watch (watched env) o m r
    else none

/-- Request `i` has gone on from `c` to `c'`. -/
structure Played (env : Env) (strict : Bool) (c c' : State) (i : ℕ)
    (t : Code (Reply × Bytes) × Local × Usage) (n : UInt64) (s : Store) : Prop where
  run : ReflTransGen (PlayStep env strict) c c'
  requests : c'.requests = c.requests.set i t s
  asked : c'.asked = c.asked
  before : c'.before = c.before
  announced : c'.announced = Function.update c.announced i n

/-- No more than `m` requests have begun. -/
structure Few (env : Env) (m : ℕ) (c : State) : Prop where
  reachable : LockBalance.Reachable env c.requests
  few : ∀ j, m ≤ j → c.requests.thread j = none

section Play

variable {env : Env} {strict : Bool} {m i : ℕ} {c c' : State} {p q : Code (Reply × Bytes)}
variable {l l' : Local} {u u' : Usage} {n n' : UInt64} {s s' : Store}
  {t : Code (Reply × Bytes) × Local × Usage}

lemma PlayStep.requests (h : PlayStep env strict c c') :
    Threads.Step IsRequest (watched env) c.requests c'.requests := by
  obtain ⟨e, ⟨b, hstep, rfl⟩, -⟩ := h
  cases e <;> exact hstep.requests

lemma PlayStep.careful (h : PlayStep env true c c') : CarefulStep env c c' := by
  obtain ⟨e, hstep, h⟩ := h
  exact ⟨e, hstep, h rfl⟩

lemma PlayStep.step (h : PlayStep env strict c c') : ∃ e, Step env c e c' := by
  obtain ⟨e, hstep, -⟩ := h
  exact ⟨e, hstep⟩

lemma few_idle (hs : s.locks = .initial) : Few env m (.idle env.cwd s) :=
  ⟨⟨s, hs, .refl⟩, fun _ _ => rfl⟩

lemma Few.set (h : Few env m c) (him : i < m) (hrun : ReflTransGen (PlayStep env strict) c c')
    (hset : c'.requests = c.requests.set i t s) : Few env m c' where
  reachable := h.reachable.run (hrun.lift (fun c => c.requests) fun _ _ hstep => hstep.requests)
  few j hj := by
    rw [hset, Threads.set_thread_ne (by omega)]
    exact h.few j hj

lemma Few.not_wraps {c'' : Requests} (h : Few env m c) (hm : m < 2 ^ 32 - 1) :
    ¬ Wraps c.requests c'' :=
  not_wraps_of_few hm h.reachable h.few

lemma played (h : Few env m c) (hm : m < 2 ^ 32 - 1) (him : i < m)
    (hi : c.requests.thread i = some (p, l, u))
    (hp : Steps (playing env strict) (p, (((l, u), c.announced i), c.requests.shared))
      (q, (((l', u'), n'), s'))) : ∃ c', Played env strict c c' i (q, l', u') n' s' := by
  generalize hb : (q, (((l', u'), n'), s')) = b at hp
  induction hp generalizing q l' u' n' s' with
  | refl =>
    cases hb
    exact ⟨c, .refl, (Threads.set_eq_self hi).symm, rfl, rfl, (Function.update_eq_self _ _).symm⟩
  | @tail d _ _ hlast ih =>
    obtain ⟨q₁, ⟨⟨l₁, u₁⟩, n₁⟩, s₁⟩ := d
    cases hb
    obtain ⟨c₁, h₁⟩ := ih rfl
    have hi₁ : c₁.requests.thread i = some (q₁, l₁, u₁) := by
      rw [h₁.requests, Threads.set_thread_self]
    obtain rfl : c₁.announced i = n₁ := by rw [h₁.announced, Function.update_self]
    obtain rfl : c₁.requests.shared = s₁ := by rw [h₁.requests, Threads.set_shared]
    cases hlast with
    | @call o k _ _ r hr =>
      obtain ⟨hcareful, hr⟩ := Option.ite_none_right_eq_some.mp hr
      obtain ⟨hwatched, rfl⟩ := Monitor.watch_eq_some.mp hr
      refine ⟨_, h₁.run.tail ⟨.calls i o r, ⟨_, .call r hi₁ hwatched, rfl⟩, fun hstrict => ?_⟩, ?_,
        h₁.asked, h₁.before, ?_⟩
      · obtain ⟨hok, hserves⟩ := hcareful hstrict
        have hu : c₁.requests.usage i = u₁ := by simp [Requests.usage, hi₁]
        exact ⟨⟨fun _ => hok, fun _ => hu ▸ hserves⟩, (h.set him h₁.run h₁.requests).not_wraps hm⟩
      · change Threads.set c₁.requests i _ _ = _
        rw [h₁.requests, Threads.set_set]
      · change Function.update c₁.announced i _ = _
        rw [h₁.announced, Function.update_idem]

end Play

/-- A request of bob's, for a file `x`. -/
def bobs (cmd : CommandType) (size : ℕ) : Request := ⟨makeRequest cmd size 1 0, [], bytes "x"⟩

/-- A part of a request, on its own. -/
def part (strict : Bool) (fuel : ℕ) (p : Code (Reply × Bytes))
    (m : ((Local × Usage) × UInt64) × Store) :
    Option (Prog.Running Call Answer Exn (Reply × Bytes) (((Local × Usage) × UInt64) × Store)) :=
  follow (fun o m => oblige .atRoot o (m.1.1.1, m.2)) (playing .atRoot strict) fuel p m

def first (strict : Bool) (fuel i : ℕ) (cmd : CommandType) (input : Bytes) (s : Store) :
    Option (Prog.Running Call Answer Exn (Reply × Bytes) (((Local × Usage) × UInt64) × Store)) :=
  part strict fuel (dispatch .little (bytes "bob") (bobs cmd input.length) [])
    (((.fresh i input true, .start), 0), s)

lemma careful_bobs {env : Env} (c : State) (i : ℕ) (l : Local) (cmd : CommandType) (size : ℕ) :
    Careful env c (.begins i l (bytes "bob") (bobs cmd size) []) := by
  have hx : Named (bytes "bob") [bytes "x"] := Or.inr ⟨FileIdentity.plain_bob, by decide⟩
  have hnone : Named (bytes "bob") [bytes "x", []] := Or.inr ⟨FileIdentity.plain_bob, by decide⟩
  refine ⟨fun ch hch => ?_, fun _ => hx⟩
  cases cmd <;> cases hch <;> first | exact hx | exact hnone

lemma joins {strict : Bool} {fuel i : ℕ} {c : State} {cmd : CommandType} {input : Bytes}
    {q : Code (Reply × Bytes)} {l : Local} {u : Usage} {n : UInt64} {s : Store}
    (h : Few .atRoot 3 c)
    (hi : c.requests.thread i = none) (him : i < 3) (hn : c.announced i = 0) {s₀ : Store}
    (hs : c.requests.shared = s₀)
    (hfirst : first strict fuel i cmd input s₀ = some (q, (((l, u), n), s))) :
    ∃ c', ReflTransGen (PlayStep .atRoot strict) c c' ∧ c'.requests = c.requests.set i (q, l, u) s ∧
      c'.asked = Function.update c.asked i (some (bytes "bob", bobs cmd input.length, [])) ∧
      c'.before = Function.update c.before i (Local.fresh i input true).conn ∧
      c'.announced = Function.update c.announced i n := by
  have hbegin : PlayStep .atRoot strict c (c.after Env.atRoot.cwd _ (.begins i (.fresh i input true)
      (bytes "bob") (bobs cmd input.length) [])) :=
    ⟨_, ⟨_, .start .little (bytes "bob") (bobs cmd input.length) [] hi rfl, rfl⟩,
      fun _ => ⟨careful_bobs c i _ cmd _, h.not_wraps (by decide)⟩⟩
  have hbegun : Few .atRoot 3 _ := h.set him (.single hbegin) rfl
  have hsteps := steps_of_follow hfirst
  rw [← hn, ← hs] at hsteps
  obtain ⟨c', hc'⟩ := played hbegun (by decide) him (Threads.set_thread_self ..) hsteps
  refine ⟨c', .head hbegin hc'.run, ?_, hc'.asked, hc'.before, hc'.announced⟩
  rw [hc'.requests]
  exact Threads.set_set ..

/-- Bob uploads `x`. When his DOWNLOAD of it has sent the header and not yet locked the file, he
uploads it again. -/
def overtaking (strict : Bool) (input : Bytes) :
    Option (Prog.Running Call Answer Exn (Reply × Bytes) (((Local × Usage) × UInt64) × Store)) :=
  (first strict 40 0 .upload [0x41] LockBalance.bare).bind fun c₀ =>
    (first strict 3 1 .download [] c₀.2.2).bind fun c₁ =>
      (first strict 40 2 .upload input c₁.2.2).bind fun c₂ =>
        part strict 20 c₁.1 (c₁.2.1, c₂.2.2)

lemma overtaken {strict : Bool} {input : Bytes} {q : Code (Reply × Bytes)} {l : Local} {u : Usage}
    {n : UInt64} {s : Store} (h : overtaking strict input = some (q, (((l, u), n), s))) :
    ∃ c, ReflTransGen (PlayStep .atRoot strict) (.idle Env.atRoot.cwd LockBalance.bare) c ∧
      c.Downloads 1 (bytes "bob") (bobs .download 0) ∧ c.before 1 = (Local.fresh 1 [] true).conn ∧
      c.requests.thread 1 = some (q, l, u) := by
  obtain ⟨⟨q₀, ⟨⟨l₀, u₀⟩, n₀⟩, s₀⟩, hfirst₀, h⟩ := Option.bind_eq_some_iff.mp h
  obtain ⟨⟨q₁, ⟨⟨l₁, u₁⟩, n₁⟩, s₁⟩, hfirst₁, h⟩ := Option.bind_eq_some_iff.mp h
  obtain ⟨⟨q₂, ⟨⟨l₂, u₂⟩, n₂⟩, s₂⟩, hfirst₂, h⟩ := Option.bind_eq_some_iff.mp h
  have hfew : Few .atRoot 3 (.idle Env.atRoot.cwd LockBalance.bare) := few_idle rfl
  obtain ⟨c₀, hrun₀, hrequests₀, -, -, hannounced₀⟩ := joins hfew rfl (by decide) rfl rfl hfirst₀
  have hfew₀ := hfew.set (by decide) hrun₀ hrequests₀
  obtain ⟨c₁, hrun₁, hrequests₁, hasked₁, hbefore₁, hannounced₁⟩ :=
    joins hfew₀ (i := 1) (by rw [hrequests₀]; rfl) (by decide) (by rw [hannounced₀]; rfl)
      (by rw [hrequests₀]; rfl) hfirst₁
  have hfew₁ := hfew₀.set (by decide) hrun₁ hrequests₁
  obtain ⟨c₂, hrun₂, hrequests₂, hasked₂, hbefore₂, hannounced₂⟩ :=
    joins hfew₁ (i := 2) (by rw [hrequests₁, hrequests₀]; rfl) (by decide)
      (by rw [hannounced₁, hannounced₀]; rfl) (by rw [hrequests₁]; rfl) hfirst₂
  have hfew₂ := hfew₁.set (by decide) hrun₂ hrequests₂
  have hsteps := steps_of_follow h
  have hn₂ : n₁ = c₂.announced 1 := by rw [hannounced₂, hannounced₁]; rfl
  have hs₂ : s₂ = c₂.requests.shared := by rw [hrequests₂]; rfl
  dsimp only at hsteps
  rw [hn₂, hs₂] at hsteps
  obtain ⟨c₃, hc₃⟩ := played hfew₂ (i := 1) (by decide) (by decide)
    (by rw [hrequests₂, hrequests₁]; rfl) hsteps
  refine ⟨c₃, ((hrun₀.trans hrun₁).trans hrun₂).trans hc₃.run, ⟨rfl, [], ?_⟩, ?_, ?_⟩
  · rw [hc₃.asked, hasked₂, hasked₁]
    rfl
  · rw [hc₃.before, hbefore₂, hbefore₁]
    rfl
  · rw [hc₃.requests, Threads.set_thread_self]

def wasStreamed : Code (Reply × Bytes) → Bool
  | .pure (.streamed, _) => true
  | _ => false

lemma eq_of_wasStreamed {p : Code (Reply × Bytes)} (h : wasStreamed p = true) :
    ∃ user, p = .ofExcept (.ok (.streamed, user)) := by
  unfold wasStreamed at h
  split at h
  · exact ⟨_, rfl⟩
  · cases h

/-- What bob's DOWNLOAD sends. -/
def sends (strict : Bool) (input sent : Bytes) : Bool :=
  (overtaking strict input).any fun c => wasStreamed c.1 && c.2.1.1.1.conn.sent == sent

lemma exists_sent {strict : Bool} {input sent : Bytes} (h : sends strict input sent = true) :
    ∃ c user l u, ReflTransGen (PlayStep .atRoot strict) (.idle Env.atRoot.cwd LockBalance.bare) c ∧
      c.Downloads 1 (bytes "bob") (bobs .download 0) ∧ (c.before 1).sent = [] ∧
      c.requests.thread 1 = some (.ofExcept (.ok (.streamed, user)), l, u) ∧
        l.conn.sent = sent := by
  obtain ⟨⟨q, ⟨⟨l, u⟩, n⟩, s⟩, hover, hend⟩ := (Option.any_eq_true _ _).mp h
  obtain ⟨hstreamed, hsent⟩ := Bool.and_eq_true_iff.mp hend
  obtain ⟨user, rfl⟩ := eq_of_wasStreamed hstreamed
  obtain ⟨c, hrun, hd, hbefore, hthread⟩ := overtaken hover
  exact ⟨c, user, l, u, hrun, hd, by rw [hbefore]; rfl, hthread, beq_iff_eq.mp hsent⟩

theorem framed_of_careful_bob : ∃ c user l u,
    ReflTransGen (CarefulStep .atRoot) (.idle Env.atRoot.cwd LockBalance.bare) c ∧
      c.Downloads 1 (bytes "bob") (bobs .download 0) ∧
      c.requests.thread 1 = some (.ofExcept (.ok (.streamed, user)), l, u) ∧
      l.conn.sent = okHeader (CommandType.download).code 1 ++ [0x42] ∧
      Framed (bobs .download 0).header.command (c.before 1)
        (c.versionsOf (bytes "bob") (bytes "x")) l.conn (.ok (.streamed, user)) := by
  have hsends : sends true [0x42] (okHeader (CommandType.download).code 1 ++ [0x42]) = true := by
    decide +kernel
  obtain ⟨c, user, l, u, hrun, hd, -, hthread, hsent⟩ := exists_sent hsends
  have hcareful : ReflTransGen (CarefulStep .atRoot) (.idle Env.atRoot.cwd LockBalance.bare) c :=
    hrun.lift id fun _ _ h => h.careful
  exact ⟨c, user, l, u, hcareful, hd, hthread, hsent,
    framed_of_careful .atRoot _ rfl c hcareful 1 _ _ hd _ l u hthread⟩

/-- Bob's second upload is longer than the first: the header of his DOWNLOAD announces one byte, and
two are sent. -/
theorem not_framed : ¬ ∀ (env : Env) (s : Store), s.locks = .initial → ∀ c,
    ReflTransGen (fun c c' => ∃ e, Step env c e c') (.idle env.cwd s) c → ∀ i user req,
    c.Downloads i user req → ∀ r l u, c.requests.thread i = some (.ofExcept r, l, u) →
    Framed req.header.command (c.before i) (c.versionsOf user req.filename) l.conn r := by
  intro hall
  have hsends : sends false [0x42, 0x43] (okHeader (CommandType.download).code 1 ++ [0x42, 0x43]) =
      true := by
    decide +kernel
  obtain ⟨c, user, l, u, hrun, hd, hbefore, hthread, hsent⟩ := exists_sent hsends
  have hrun' : ReflTransGen (fun c c' => ∃ e, Step .atRoot c e c')
      (.idle Env.atRoot.cwd LockBalance.bare) c := hrun.lift id fun _ _ h => h.step
  obtain ⟨n, bs, hconn, hlen, -⟩ := hall .atRoot _ rfl c hrun' 1 _ _ hd _ l u hthread
  rw [hconn, Conn.sent_emit, hbefore, List.nil_append] at hsent
  have hheader : ∀ n, (okHeader (CommandType.download).code n).length = 32 := fun n => by
    simp [okHeader, wireMeta, makeResponse]
  obtain ⟨hn, rfl⟩ := List.append_inj hsent (by rw [hheader]; exact hheader n)
  obtain rfl : n = 2 := UInt64.toNat_inj.mp hlen.symm
  revert hn
  decide

end Mtfss.FramedDownload
