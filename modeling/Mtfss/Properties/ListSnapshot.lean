import Mtfss.Properties.FailedUpload
import Mtfss.Properties.LockExclusion
import Mtfss.Server.FileWork

/-! What a LIST answers while other requests of its user are under way. -/

namespace Mtfss.ListSnapshot

open Effects Server Relation LockBalance LockExclusion Rules FailedUpload

/-- The records of the user's files are those that the changes have made, but for the files that are
out of the index while they are being renamed. -/
structure Agrees (user : Bytes) (task : ℕ → Option Change) (progress : ℕ → Progress)
    (index now : FileSet) : Prop where
  locked : ∀ i f g, task i = some (.move f g) → (progress i).stage.isMoving = true →
    filePath user f ∈ (progress i).held ∧ filePath user g ∈ (progress i).held ∧
      filePath user f ≠ filePath user g
  size : ∀ i f g n, task i = some (.move f g) →
    (progress i).stage = .sized n ∨ (progress i).stage = .between n → n = (now f).getD 0
  gone : ∀ i f g n, task i = some (.move f g) → (progress i).stage = .between n → index f = none
  rest : ∀ h, (∀ i g n, task i = some (.move h g) → (progress i).stage ≠ .between n) →
    index h = now h

def Excludes (progress : ℕ → Progress) : Prop :=
  ∀ i j key, i ≠ j → key ∈ (progress i).held → key ∉ (progress j).held

namespace Agrees

variable {user f g : Bytes} {task : ℕ → Option Change} {progress : ℕ → Progress} {i j : ℕ}
variable {index now index' : FileSet} {t : Progress} {n : UInt64}

/-- The locks of one request keep all others from moving the files that it has locked. -/
lemma apart (h : Agrees user task progress index now) (hexcl : Excludes progress) (hne : j ≠ i)
    (htask : task j = some (.move f g)) (hmoving : (progress j).stage.isMoving = true) {x : Bytes}
    (hx : filePath user x ∈ (progress i).held) : f ≠ x := by
  rintro rfl
  exact hexcl j i _ hne (h.locked j f g htask hmoving).1 hx

lemma keep (h : Agrees user task progress index now) (hstage : t.stage = (progress i).stage)
    (hheld : t.stage.isMoving = true → ∀ key ∈ (progress i).held, key ∈ t.held) :
    Agrees user task (Function.update progress i t) index now := by
  have hsame : ∀ j, (Function.update progress i t j).stage = (progress j).stage := by
    intro j
    by_cases hj : j = i
    · rw [hj, Function.update_self, hstage]
    · rw [Function.update_of_ne hj]
  refine ⟨fun j f g htask hmoving => ?_, ?_, ?_, ?_⟩
  · rw [hsame] at hmoving
    obtain ⟨hf, hg, hne⟩ := h.locked j f g htask hmoving
    by_cases hj : j = i
    · subst hj
      rw [Function.update_self]
      rw [← hstage] at hmoving
      exact ⟨hheld hmoving _ hf, hheld hmoving _ hg, hne⟩
    · rw [Function.update_of_ne hj]
      exact ⟨hf, hg, hne⟩
  · simpa only [hsame] using h.size
  · simpa only [hsame] using h.gone
  · simpa only [hsame] using h.rest

lemma settle (h : Agrees user task progress index now) (hmoving : t.stage.isMoving = false)
    (hbetween : ∀ n f g, task i = some (.move f g) → (progress i).stage ≠ .between n) :
    Agrees user task (Function.update progress i t) index now := by
  have hself : ∀ n, ¬ (t.stage = .sized n ∨ t.stage = .between n) := by
    rintro n (hp | hp) <;> simp [hp, Stage.isMoving] at hmoving
  refine ⟨fun j f g htask hm => ?_, fun j f g n htask hp => ?_, fun j f g n htask hp => ?_,
    fun x hx => h.rest x fun j g n htask hp => ?_⟩ <;> by_cases hj : j = i
  · rw [hj, Function.update_self, hmoving] at hm
    cases hm
  · rw [Function.update_of_ne hj] at hm ⊢
    exact h.locked j f g htask hm
  · rw [hj, Function.update_self] at hp
    exact (hself n hp).elim
  · rw [Function.update_of_ne hj] at hp
    exact h.size j f g n htask hp
  · rw [hj, Function.update_self] at hp
    exact (hself n (Or.inr hp)).elim
  · rw [Function.update_of_ne hj] at hp
    exact h.gone j f g n htask hp
  · subst hj
    exact hbetween n x g htask hp
  · refine hx j g n htask ?_
    rwa [Function.update_of_ne hj]

lemma aside (h : Agrees user task progress index now) (htask : ∀ f g, task i ≠ some (.move f g)) :
    Agrees user task (Function.update progress i t) index now := by
  have hother : ∀ {j f g}, task j = some (.move f g) →
      Function.update progress i t j = progress j := by
    intro j f g hj
    refine Function.update_of_ne ?_ _ _
    rintro rfl
    exact htask f g hj
  refine ⟨fun j f g hj hm => ?_, fun j f g n hj hp => ?_, fun j f g n hj hp => ?_,
    fun x hx => h.rest x fun j g n hj hp => ?_⟩
  · rw [hother hj] at hm ⊢
    exact h.locked j f g hj hm
  · rw [hother hj] at hp
    exact h.size j f g n hj hp
  · rw [hother hj] at hp
    exact h.gone j f g n hj hp
  · refine hx j g n hj ?_
    rwa [hother hj]

lemma read (h : Agrees user task progress index now) (hexcl : Excludes progress)
    (htask : task i = some (.move f g)) (hbefore : (progress i).stage = .before)
    (hf : filePath user f ∈ (progress i).held) (hg : filePath user g ∈ (progress i).held)
    (hne : filePath user f ≠ filePath user g) (hheld : t.held = (progress i).held)
    (ht : t.stage = .sized ((index f).getD 0)) :
    Agrees user task (Function.update progress i t) index now := by
  have hindex : index f = now f := by
    refine h.rest f fun j g' n htask' hp => ?_
    by_cases hj : j = i
    · rw [hj, hbefore] at hp
      cases hp
    · exact h.apart hexcl hj htask' (by rw [hp]; rfl) hf rfl
  refine ⟨fun j f' g' htask' hm => ?_, fun j f' g' n htask' hp => ?_, fun j f' g' n htask' hp => ?_,
    fun x hx => h.rest x fun j g' n htask' hp => ?_⟩ <;> by_cases hj : j = i
  · subst hj
    cases htask.symm.trans htask'
    rw [Function.update_self, hheld]
    exact ⟨hf, hg, hne⟩
  · rw [Function.update_of_ne hj] at hm ⊢
    exact h.locked j f' g' htask' hm
  · subst hj
    cases htask.symm.trans htask'
    rw [Function.update_self, ht] at hp
    simpa [hindex, eq_comm] using hp
  · rw [Function.update_of_ne hj] at hp
    exact h.size j f' g' n htask' hp
  · rw [hj, Function.update_self, ht] at hp
    cases hp
  · rw [Function.update_of_ne hj] at hp
    exact h.gone j f' g' n htask' hp
  · rw [hj, hbefore] at hp
    cases hp
  · refine hx j g' n htask' ?_
    rwa [Function.update_of_ne hj]

lemma takeOut (h : Agrees user task progress index now) (hexcl : Excludes progress)
    (htask : task i = some (.move f g)) (hp : (progress i).stage = .sized n)
    (hheld : t.held = (progress i).held) (ht : t.stage = .between n) :
    Agrees user task (Function.update progress i t) (Function.update index f none) now := by
  have hmoving : (progress i).stage.isMoving = true := by rw [hp]; rfl
  have hlocked := h.locked i f g htask hmoving
  refine ⟨fun j f' g' htask' hm => ?_, fun j f' g' m htask' hp' =>
    ?_, fun j f' g' m htask' hp' => ?_,
    fun x hx => ?_⟩
  · by_cases hj : j = i
    · subst hj
      cases htask.symm.trans htask'
      rwa [Function.update_self, hheld]
    · rw [Function.update_of_ne hj] at hm ⊢
      exact h.locked j f' g' htask' hm
  · by_cases hj : j = i
    · subst hj
      cases htask.symm.trans htask'
      rw [Function.update_self, ht] at hp'
      obtain rfl : n = m := by simpa using hp'
      exact h.size j f g n htask (Or.inl hp)
    · rw [Function.update_of_ne hj] at hp'
      exact h.size j f' g' m htask' hp'
  · by_cases hj : j = i
    · subst hj
      cases htask.symm.trans htask'
      exact Function.update_self _ _ _
    · rw [Function.update_of_ne hj] at hp'
      have hne := h.apart hexcl hj htask' (by rw [hp']; rfl) hlocked.1
      rw [Function.update_of_ne hne]
      exact h.gone j f' g' m htask' hp'
  · have hne : x ≠ f := by
      rintro rfl
      refine hx i g n htask ?_
      rwa [Function.update_self]
    rw [Function.update_of_ne hne]
    refine h.rest x fun j g' m htask' hp' => ?_
    by_cases hj : j = i
    · subst hj
      cases htask.symm.trans htask'
      exact hne rfl
    · refine hx j g' m htask' ?_
      rwa [Function.update_of_ne hj]

/-- A request has carried out its change, and had locked the files that it concerns. -/
lemma commit {ch : Change} (h : Agrees user task progress index now) (hexcl : Excludes progress)
    (ht : t.stage = .done) (hkeys : ∀ x ∈ ch.touches, filePath user x ∈ (progress i).held)
    (hindex : ∀ x ∈ ch.touches, index' x = ch.apply now x)
    (hrest : ∀ x, x ∉ ch.touches → index' x = index x)
    (hmine : ∀ f g n, task i = some (.move f g) → (progress i).stage = .between n →
      f ∈ ch.touches) :
    Agrees user task (Function.update progress i t) index' (ch.apply now) := by
  have hother : ∀ {j f g}, j ≠ i → task j = some (.move f g) → (progress j).stage.isMoving = true →
      f ∉ ch.touches := by
    intro j f g hj htask hmoving hmem
    exact h.apart hexcl hj htask hmoving (hkeys f hmem) rfl
  refine ⟨fun j f g htask hm => ?_, fun j f g n htask hp => ?_, fun j f g n htask hp => ?_,
    fun x hx => ?_⟩
  · by_cases hj : j = i
    · rw [hj, Function.update_self, ht] at hm
      cases hm
    · rw [Function.update_of_ne hj] at hm ⊢
      exact h.locked j f g htask hm
  · by_cases hj : j = i
    · rw [hj, Function.update_self, ht] at hp
      rcases hp with hp | hp <;> cases hp
    · rw [Function.update_of_ne hj] at hp
      have hmoving : (progress j).stage.isMoving = true := by
        rcases hp with hp | hp <;> rw [hp] <;> rfl
      rw [Change.apply_of_notMem (hother hj htask hmoving)]
      exact h.size j f g n htask hp
  · by_cases hj : j = i
    · rw [hj, Function.update_self, ht] at hp
      cases hp
    · rw [Function.update_of_ne hj] at hp
      rw [hrest f (hother hj htask (by rw [hp]; rfl))]
      exact h.gone j f g n htask hp
  · by_cases hmem : x ∈ ch.touches
    · exact hindex x hmem
    rw [hrest x hmem, Change.apply_of_notMem hmem]
    refine h.rest x fun j g n htask hp => ?_
    by_cases hj : j = i
    · subst hj
      exact hmem (hmine x g n htask hp)
    · refine hx j g n htask ?_
      rwa [Function.update_of_ne hj]

end Agrees

/-- The change that a call has completed, when it was the last of its task. -/
def committed (task : Option Change) (old new : Stage) : Option Change :=
  if new = .done ∧ old ≠ .done then task else none

def after (past : List (ℕ × Change)) (files : FileSet) : FileSet :=
  past.foldl (fun files x => x.2.apply files) files

/-- The requests of one user with what they were asked, how far they are, the changes completed so
far with the requests that made them, and how many of these were there when a request began. -/
structure State where
  requests : Requests
  asked : ℕ → Option (Request × Bytes)
  progress : ℕ → Progress
  past : List (ℕ × Change)
  since : ℕ → ℕ

namespace State

def idle (s : Store) : State := ⟨.idle s, fun _ => none, fun _ => .start, [], fun _ => 0⟩

def task (c : State) (i : ℕ) : Option Change := (c.asked i).bind fun a => taskOf a.1 a.2

def begin (c : State) (i : ℕ) (t : Code (Reply × Bytes) × Local × Usage) (a : Request × Bytes) :
    State where
  requests := c.requests.set i t c.requests.shared
  asked := Function.update c.asked i (some a)
  progress := c.progress
  past := c.past
  since := Function.update c.since i c.past.length

/-- After request `i` has made a call. -/
def advance (c : State) (i : ℕ) (o : Call) (r : Answer o) (t : Code (Reply × Bytes) × Local × Usage)
    (s : Store) : State where
  requests := c.requests.set i t s
  asked := c.asked
  progress := Function.update c.progress i (Progress.after o (c.progress i) r)
  past := c.past ++ ((committed (c.task i) (c.progress i).stage
    (Progress.after o (c.progress i) r).stage).map (Prod.mk i)).toList
  since := c.since

end State

/-- The user begins a request, or one of the requests under way makes a call. -/
inductive Step (env : Env) (user : Bytes) : State → State → Prop
  | start {c i l} (host : Endian) (req : Request) (payload : Bytes) : c.requests.thread i = none →
      l.self = i → Step env user c
        (c.begin i (dispatch host user req payload, l, .start) (req, payload))
  | call {c i o k l u l' u' s'} (r : Answer o) : c.requests.thread i = some (.op o k, l, u) →
      watched env o ((l, u), c.requests.shared) r = some ((l', u'), s') →
      Step env user c (c.advance i o r (k r, l', u') s')

abbrev Run (env : Env) (user : Bytes) : State → State → Prop := ReflTransGen (Step env user)

/-- The records are the names and sizes of the files, each once. -/
structure Lists (records : List FileMetadata) (files : FileSet) : Prop where
  complete : ∀ f n, files f = some n ↔ ∃ record ∈ records, record.filename = f ∧ record.size = n
  once : (records.map FileMetadata.filename).Nodup

/-- A file that one of the changes right before and right after a moment renames is listed under
exactly one of its names. -/
def OneName (past : List (ℕ × Change)) (files : FileSet) (m : ℕ) (records : List FileMetadata) :
    Prop :=
  ∀ p j f g, past[p]? = some (j, .move f g) → f ≠ g → m = p ∨ m = p + 1 →
    after (past.take p) files f ≠ none → after (past.take p) files g = none →
    Xor (∃ record ∈ records, record.filename = f) (∃ record ∈ records, record.filename = g)

/-- The records are the user's files after some of the changes, among them those completed when
request `i` began. -/
def Snapshot (files : FileSet) (c : State) (i : ℕ) (records : List FileMetadata) : Prop :=
  ∃ m, c.since i ≤ m ∧ m ≤ c.past.length ∧ Lists records (after (c.past.take m) files) ∧
    OneName c.past files m records

/-- The changes are whole requests in an order that respects which ended before another began. -/
structure Serial (user : Bytes) (c : State) : Prop where
  own : ∀ i ch, (i, ch) ∈ c.past → c.task i = some ch
  once : (c.past.map Prod.fst).Nodup
  begun : ∀ p i ch, c.past[p]? = some (i, ch) → c.since i ≤ p
  success : ∀ i reply x l u ch, c.requests.thread i = some (.pure (reply, x), l, u) →
    reply.Success → c.task i = some ch →
      (i, ch) ∈ c.past ∨ ∃ f g, ch = .move f g ∧ filePath user f = filePath user g

/-- `files` are the user's files at the beginning. -/
structure Consistent (user : Bytes) (files : FileSet) (c : State) : Prop where
  serial : Serial user c
  /-- between the changes the index is what they have made of it -/
  index : (∀ i n, (c.progress i).stage ≠ .between n) →
    c.requests.shared.index.fileSet (indexDir user) = after c.past files
  seen : ∀ i records, (c.progress i).seen = some records → Snapshot files c i records
  reply : ∀ i req payload reply x l u, c.asked i = some (req, payload) →
    CommandType.ofCode req.header.command = some .list → user ≠ [] →
    c.requests.thread i = some (.pure (reply, x), l, u) → ∃ records,
      (c.progress i).seen = some records ∧
        reply = respond req.header.command .ok (FileManager.renderListing records)

/-- The index is not read while a renamed file is out of it, every renamed file gets back into it,
and no reference count of a path lock wraps around. -/
structure Orderly (c c' : State) : Prop where
  reads : ∀ i, (c'.progress i).seen ≠ (c.progress i).seen →
    ∀ j n, (c.progress j).stage ≠ .between n
  lands : ∀ i n, (c.progress i).stage = .between n → (c'.progress i).stage ≠ .failed
  counts : ¬ Wraps c.requests c'.requests

variable {env : Env} {user : Bytes} {files : FileSet} {c c' : State}

lemma Step.requests (h : Step env user c c') :
    Threads.Step IsRequest (watched env) c.requests c'.requests := by
  cases h with
  | start host req payload hi hl => exact .start hi ⟨host, user, req, payload, rfl, hl, rfl⟩
  | call r hi hr => exact .call r hi hr

lemma after_append (past : List (ℕ × Change)) (i : ℕ) (ch : Option Change) (files : FileSet) :
    after (past ++ (ch.map (Prod.mk i)).toList) files =
      ch.elim (after past files) (fun ch => ch.apply (after past files)) := by
  cases ch <;> simp [after]

lemma mem_committed {task : Option Change} {old new : Stage} {i j : ℕ} {ch : Change} :
    (j, ch) ∈ ((committed task old new).map (Prod.mk i)).toList ↔
      j = i ∧ new = .done ∧ old ≠ .done ∧ task = some ch := by
  rw [committed]
  split
  · rename_i hp
    simp [hp, eq_comm, and_comm]
  · rename_i hp
    simp only [Option.map_none, Option.toList_none, List.not_mem_nil, false_iff]
    tauto

lemma held_after {o : Call} {t : Progress} {u : Usage} (h : t.held = u.exclusive) (r : Answer o) :
    (Progress.after o t r).held = (Usage.after o u r).exclusive := by
  by_cases ho : o.isLock = false
  · rw [(Usage.after_of_not_lock ho r).2.2, ← h]
    cases o <;> first | rfl | cases ho
  · cases o with
    | acquireLockRef key => cases r <;> exact h
    | _ => first | exact (ho rfl).elim | exact h | simp [Progress.after, Usage.after, h]

lemma stage_done {task : Option Change} {o : Call} {t : Progress} {ch : Change}
    (ha : Progress.Allows user task o t) (htask : task = some ch) (ht : t.stage = .done)
    (r : Answer o) : (Progress.after o t r).stage = .done := by
  have hne : ∀ {n}, t.stage ≠ .sized n ∧ t.stage ≠ .between n ∧ t.stage ≠ .before := by simp [ht]
  cases o with
  | getFileSize dir f =>
    obtain ⟨g, -, -, hbefore, -⟩ := ha ch htask
    exact (hne (n := 0).2.2 hbefore).elim
  | removeFile dir f =>
    rcases ha.2.2 with ⟨-, hp⟩ | ⟨g, n, -, hp⟩
    · exact (hne (n := 0).2.2 hp).elim
    · exact (hne.1 hp).elim
  | addFile dir f size time =>
    rcases ha.2.2 with ⟨-, hp⟩ | ⟨g, -, hp⟩
    · exact (hne (n := 0).2.2 hp).elim
    · exact (hne.2.1 hp).elim
  | _ => exact ht

lemma lists_of_perm {ix : Index} {dir : Bytes} {records : List FileMetadata}
    (h : records.Perm (ix.listDirectory dir)) : Lists records (ix.fileSet dir) where
  complete f n := by
    simp only [Index.fileSet, Option.map_eq_some_iff, h.mem_iff, Index.mem_listDirectory]
    constructor
    · rintro ⟨record, hrecord, rfl⟩
      obtain rfl := ix.entry_filename hrecord
      exact ⟨record, hrecord, rfl, rfl⟩
    · rintro ⟨record, hrecord, rfl, rfl⟩
      exact ⟨record, hrecord, rfl⟩
  once := (h.map _).nodup_iff.mpr (ix.nodup_listDirectory dir)

lemma Lists.name_iff {records : List FileMetadata} (h : Lists records files) (f : Bytes) :
    (∃ record ∈ records, record.filename = f) ↔ files f ≠ none := by
  rw [Option.ne_none_iff_exists']
  constructor
  · rintro ⟨record, hrecord, rfl⟩
    exact ⟨record.size, (h.complete _ _).mpr ⟨record, hrecord, rfl, rfl⟩⟩
  · rintro ⟨n, hn⟩
    obtain ⟨record, hrecord, hname, -⟩ := (h.complete _ _).mp hn
    exact ⟨record, hrecord, hname⟩

lemma Lists.oneName {records : List FileMetadata} {past : List (ℕ × Change)} {m : ℕ}
    (h : Lists records (after (past.take m) files)) : OneName past files m records := by
  rintro p j f g hp hne hm hf hg
  rw [h.name_iff, h.name_iff]
  rcases hm with rfl | rfl
  · exact Or.inl ⟨hf, not_not.mpr hg⟩
  · have htake : past.take (p + 1) = past.take p ++ [(j, .move f g)] := by
      rw [List.take_add_one, hp]
      rfl
    refine Or.inr ⟨?_, not_not.mpr ?_⟩
    · simp [htake, after, Change.apply]
    · simp [htake, after, Change.apply, hne]

lemma Snapshot.mono {i : ℕ} {records : List FileMetadata} (h : Snapshot files c i records)
    (hsince : c'.since i = c.since i) (hpast : c.past <+: c'.past) :
    Snapshot files c' i records := by
  obtain ⟨m, hs, hm, hlists, -⟩ := h
  have htake : c'.past.take m = c.past.take m := by
    obtain ⟨xs, hxs⟩ := hpast
    rw [← hxs, List.take_append_of_le_length hm]
  rw [← htake] at hlists
  exact ⟨m, hsince ▸ hs, hm.trans hpast.length_le, hlists, hlists.oneName⟩

structure Inv (user : Bytes) (files : FileSet) (c : State) : Prop where
  sound : c.requests.Sound
  keys : ∀ key, OneEntry c.requests key ∧ KeyHeld c.requests key
  tracks : ∀ i p l u, c.requests.thread i = some (p, l, u) → ∃ req payload,
    c.asked i = some (req, payload) ∧
      Progress.Tracks user (taskOf req payload) p (Replies user req payload) (c.progress i)
  fresh : ∀ i, c.requests.thread i = none → c.progress i = .start ∧ c.asked i = none
  held : ∀ i, (c.progress i).held = (c.requests.usage i).exclusive
  agrees : Agrees user c.task c.progress (c.requests.shared.index.fileSet (indexDir user))
    (after c.past files)
  own : ∀ i ch, (i, ch) ∈ c.past ↔ c.task i = some ch ∧ (c.progress i).stage = .done
  once : (c.past.map Prod.fst).Nodup
  begun : ∀ p i ch, c.past[p]? = some (i, ch) → c.since i ≤ p
  since : ∀ i, c.since i ≤ c.past.length
  seen : ∀ i records, (c.progress i).seen = some records → Snapshot files c i records

lemma inv_idle (user : Bytes) {s : Store} (hs : s.locks = .initial) :
    Inv user (s.index.fileSet (indexDir user)) (.idle s) where
  sound := Requests.sound_idle s
  keys key := ⟨oneEntry_idle hs key, keyHeld_idle hs key⟩
  tracks := nofun
  fresh _ _ := ⟨rfl, rfl⟩
  held _ := rfl
  agrees := ⟨nofun, nofun, nofun, fun _ _ => rfl⟩
  own := by simp [State.idle, State.task]
  once := List.nodup_nil
  begun := by simp [State.idle]
  since _ := le_rfl
  seen := nofun

namespace Inv

variable {i : ℕ} {o : Call} {k : Answer o → Code (Reply × Bytes)} {l l' : Local} {u u' : Usage}
variable {s' : Store} {r : Answer o}

lemma excludes (h : Inv user files c) : Excludes c.progress := by
  intro i j key hne hi hj
  rw [h.held] at hi hj
  exact ((exclusive_of_keys h.sound h.keys).alone key i j hne hi).1 hj

lemma allows (h : Inv user files c) (hi : c.requests.thread i = some (.op o k, l, u)) :
    Progress.Allows user (c.task i) o (c.progress i) := by
  obtain ⟨req, payload, hasked, htracks⟩ := h.tracks i _ l u hi
  have htask : c.task i = taskOf req payload := by rw [State.task, hasked]; rfl
  rw [htask]
  exact (Progress.tracks_op.mp htracks).1

lemma agrees_call (h : Inv user files c) (hi : c.requests.thread i = some (.op o k, l, u))
    (hr : next env o (l, c.requests.shared) r = some (l', s'))
    (hlands : ∀ n, (c.progress i).stage = .between n →
      (Progress.after o (c.progress i) r).stage ≠ .failed) :
    Agrees user c.task (Function.update c.progress i (Progress.after o (c.progress i) r))
      (s'.index.fileSet (indexDir user))
      (after (c.past ++ ((committed (c.task i) (c.progress i).stage
        (Progress.after o (c.progress i) r).stage).map (Prod.mk i)).toList) files) := by
  have ha := h.allows hi
  have hexcl := h.excludes
  rw [next_fileSet hr ha, after_append]
  have hnone : (Progress.after o (c.progress i) r).stage ≠ .done ∨ (c.progress i).stage = .done →
      committed (c.task i) (c.progress i).stage (Progress.after o (c.progress i) r).stage = none :=
    fun hp => if_neg (by tauto)
  have hdone : (Progress.after o (c.progress i) r).stage = .done → (c.progress i).stage ≠ .done →
      committed (c.task i) (c.progress i).stage
        (Progress.after o (c.progress i) r).stage = c.task i :=
    fun hnew hold => if_pos ⟨hnew, hold⟩
  have hkeep : (Progress.after o (c.progress i) r).stage = (c.progress i).stage →
      committed (c.task i) (c.progress i).stage
        (Progress.after o (c.progress i) r).stage = none := by
    intro hp
    apply hnone
    rw [hp]
    tauto
  cases o with
  | addFile dir x size time =>
    obtain ⟨-, hx, htask⟩ := ha
    rcases r with e | _
    · rw [hnone (Or.inl (by rintro ⟨⟩))]
      exact h.agrees.settle rfl fun n f g _ hp => hlands n hp rfl
    rcases htask with ⟨htask, hp⟩ | ⟨f, htask, hp⟩
    · rw [hdone rfl (by rw [hp]; rintro ⟨⟩), htask, Option.elim_some]
      refine h.agrees.commit hexcl rfl ?_ ?_ ?_ ?_
      · simpa [Change.touches] using hx
      · simp [Change.touches, Change.apply, Call.reindex]
      · intro y hy
        exact Function.update_of_ne (by simpa [Change.touches] using hy) _ _
      · intro f g n htask' _
        cases htask.symm.trans htask'
    · rw [hdone rfl (by rw [hp]; rintro ⟨⟩), htask, Option.elim_some]
      have hlocked := h.agrees.locked i f x htask (by rw [hp]; rfl)
      have hne : f ≠ x := fun he => hlocked.2.2 (congrArg _ he)
      have hsize := h.agrees.size i f x size htask (Or.inr hp)
      have hgone := h.agrees.gone i f x size htask hp
      refine h.agrees.commit hexcl rfl ?_ ?_ ?_ ?_
      · simpa [Change.touches] using ⟨hlocked.1, hlocked.2.1⟩
      · simp [Change.touches, Change.apply, Call.reindex, hne, hgone, ← hsize]
      · intro y hy
        have hy : y ≠ f ∧ y ≠ x := by simpa [Change.touches] using hy
        exact Function.update_of_ne hy.2 _ _
      · intro f' g n htask' _
        cases htask.symm.trans htask'
        simp [Change.touches]
  | removeFile dir x =>
    obtain ⟨-, hx, htask⟩ := ha
    rcases r with e | _
    · rw [hnone (Or.inl (by cases (c.progress i).stage <;> rintro ⟨⟩))]
      refine h.agrees.settle (by cases (c.progress i).stage <;> rfl) fun n f g htask' hp => ?_
      rcases htask with ⟨-, hp'⟩ | ⟨g, m, -, hp'⟩ <;> cases hp.symm.trans hp'
    rcases htask with ⟨htask, hp⟩ | ⟨g, n, htask, hp⟩
    · have hnew : (Progress.after (.removeFile dir x) (c.progress i) (.ok ())).stage = .done := by
        simp [Progress.after, hp, Stage.removed]
      rw [hdone hnew (by rw [hp]; rintro ⟨⟩), htask, Option.elim_some]
      refine h.agrees.commit hexcl hnew ?_ ?_ ?_ ?_
      · simpa [Change.touches] using hx
      · simp [Change.touches, Change.apply, Call.reindex]
      · intro y hy
        exact Function.update_of_ne (by simpa [Change.touches] using hy) _ _
      · intro f g n htask' _
        cases htask.symm.trans htask'
    · have hnew : (Progress.after (.removeFile dir x) (c.progress i) (.ok ())).stage = .between
          n := by
        simp [Progress.after, hp, Stage.removed]
      rw [hnone (Or.inl (by rw [hnew]; rintro ⟨⟩))]
      exact h.agrees.takeOut hexcl htask hp rfl hnew
  | getFileSize dir f =>
    rw [hnone (Or.inl (by rintro ⟨⟩))]
    have hanswer : r = ((c.requests.shared.index.fileSet dir) f).getD 0 := by
      simp only [next, answer_eq_some] at hr
      exact hr.1
    cases htask : c.task i with
    | none => exact h.agrees.aside fun f g => by simp [htask]
    | some ch =>
      obtain ⟨g, rfl, rfl, hbefore, hf, hg, hne⟩ := ha ch htask
      exact h.agrees.read hexcl htask hbefore hf hg hne rfl (by rw [hanswer]; rfl)
  | lock key =>
    rw [hkeep rfl]
    exact h.agrees.keep rfl fun _ key hkey => List.mem_cons_of_mem _ hkey
  | lockBoth key₁ key₂ =>
    rw [hkeep rfl]
    exact h.agrees.keep rfl fun _ key hkey => List.mem_cons_of_mem _ (List.mem_cons_of_mem _ hkey)
  | unlock key =>
    rw [hkeep rfl]
    refine h.agrees.keep rfl fun hmoving => ?_
    cases hmoving.symm.trans ha
  | _ =>
    rw [hkeep rfl]
    exact h.agrees.keep rfl fun _ key hkey => hkey

lemma locks_step (h : Inv user files c) (hs : Step env user c c') (ho : Orderly c c') :
    c'.requests.Sound ∧ ∀ key, OneEntry c'.requests key ∧ KeyHeld c'.requests key := by
  refine ⟨h.sound.step hs.requests, fun key => ⟨?_, ?_⟩⟩
  · exact (h.keys key).1.touch (h.sound.touch hs.requests key) ho.counts
  · exact (h.keys key).2.step h.sound hs.requests

lemma start (h : Inv user files c) (host : Endian) (req : Request) (payload : Bytes)
    (hi : c.requests.thread i = none)
    (hc' : c' = c.begin i (dispatch host user req payload, l, .start) (req, payload))
    (hsound : c'.requests.Sound)
    (hkeys : ∀ key, OneEntry c'.requests key ∧ KeyHeld c'.requests key) : Inv user files c' := by
  obtain ⟨hprogress, hasked⟩ := h.fresh i hi
  subst hc'
  have hold : ∀ {j ch}, c.task j = some ch → j ≠ i := by
    rintro j ch hj rfl
    simp [State.task, hasked] at hj
  have htask : ∀ {j}, j ≠ i →
      (c.begin i (dispatch host user req payload, l, .start) (req, payload)).task j = c.task j := by
    intro j hj
    simp [State.task, State.begin, hj]
  have hsince : ∀ {j}, j ≠ i →
      (c.begin i (dispatch host user req payload, l, .start) (req, payload)).since j = c.since j :=
    fun hj => Function.update_of_ne hj _ _
  have hmoved : ∀ {j}, (c.progress j).stage ≠ .before → j ≠ i := by
    rintro j hj rfl
    exact hj (by rw [hprogress]; rfl)
  have hmoving : ∀ {j}, (c.progress j).stage.isMoving = true → j ≠ i := by
    intro j hj
    apply hmoved
    intro hp
    rw [hp] at hj
    cases hj
  refine ⟨hsound, hkeys, fun j p l' u hj => ?_, fun j hj => ?_, fun j =>
    ?_, ?_, fun j ch => ?_, h.once,
    fun p j ch hp => ?_, fun j => ?_, fun j records hr => ?_⟩
  · by_cases hji : j = i
    · subst hji
      cases (Threads.set_thread_self ..).symm.trans hj
      refine ⟨req, payload, Function.update_self _ _ _, ?_⟩
      have hstart : (c.begin j (dispatch host user req payload, l, .start) (req, payload)).progress
          j = .start := hprogress
      rw [hstart]
      exact tracks_dispatch host user req payload
    · obtain ⟨req', payload', hasked', htracks⟩ :=
        h.tracks j p l' u ((Threads.set_thread_ne hji ..).symm.trans hj)
      exact ⟨req', payload', (Function.update_of_ne hji _ _).trans hasked', htracks⟩
  · have hji : j ≠ i := by
      rintro rfl
      cases (Threads.set_thread_self ..).symm.trans hj
    obtain ⟨hp, ha⟩ := h.fresh j ((Threads.set_thread_ne hji ..).symm.trans hj)
    exact ⟨hp, (Function.update_of_ne hji _ _).trans ha⟩
  · rw [State.begin, Requests.usage_set]
    split
    · rename_i hji
      rw [hji, hprogress]
      rfl
    · exact h.held j
  · refine ⟨fun j f g ht hm => ?_, fun j f g n ht hp => ?_, fun j f g n ht hp => ?_,
      fun x hx => h.agrees.rest x fun j g n ht hp => ?_⟩
    · exact h.agrees.locked j f g ((htask (hmoving hm)).symm.trans ht) hm
    · have hm : (c.progress j).stage.isMoving = true := by
        rcases hp with hp | hp <;> exact (congrArg Stage.isMoving hp)
      exact h.agrees.size j f g n ((htask (hmoving hm)).symm.trans ht) hp
    · have hm : (c.progress j).stage.isMoving = true := congrArg Stage.isMoving hp
      exact h.agrees.gone j f g n ((htask (hmoving hm)).symm.trans ht) hp
    · exact hx j g n ((htask (hold ht)).trans ht) hp
  · refine (h.own j ch).trans ?_
    by_cases hji : j = i
    · subst hji
      have hnot : ∀ ch', ¬ (c.task j = some ch' ∧ (c.progress j).stage = .done) :=
        fun ch' hj => hold hj.1 rfl
      have hbefore : (c.progress j).stage ≠ .done := by
        rw [hprogress]
        nofun
      exact iff_of_false (hnot ch) fun hj => hbefore hj.2
    · rw [htask hji]
      rfl
  · have hji : j ≠ i := hold ((h.own j ch).mp (List.mem_of_getElem? hp)).1
    rw [hsince hji]
    exact h.begun p j ch hp
  · by_cases hji : j = i
    · subst hji
      simp [State.begin]
    · rw [hsince hji]
      exact h.since j
  · have hji : j ≠ i := by
      rintro rfl
      have hseen : (c.progress j).seen = some records := hr
      rw [hprogress] at hseen
      cases hseen
    exact (h.seen j records hr).mono (hsince hji) (List.prefix_refl _)

/-- Only `list_directory` tells a request anything. -/
lemma seen_after {o : Call} {t : Progress} (r : Answer o) :
    (Progress.after o t r).seen = t.seen ∨ ∃ dir, o = .listDirectory dir := by
  cases o <;> first | exact Or.inl rfl | exact Or.inr ⟨_, rfl⟩

lemma call (h : Inv user files c) (hi : c.requests.thread i = some (.op o k, l, u))
    (hr : watched env o ((l, u), c.requests.shared) r = some ((l', u'), s'))
    (ho : Orderly c (c.advance i o r (k r, l', u') s'))
    (hsound : (c.advance i o r (k r, l', u') s').requests.Sound)
    (hkeys : ∀ key, OneEntry (c.advance i o r (k r, l', u') s').requests key ∧
      KeyHeld (c.advance i o r (k r, l', u') s').requests key) :
    Inv user files (c.advance i o r (k r, l', u') s') := by
  obtain ⟨hnext, rfl⟩ := Monitor.watch_eq_some.mp hr
  have ha := h.allows hi
  have hself : (c.advance i o r (k r, l', Usage.after o u r) s').progress i =
      Progress.after o (c.progress i) r := Function.update_self _ _ _
  have hother : ∀ {j}, j ≠ i → (c.advance i o r (k r, l', Usage.after o u r) s').progress j =
      c.progress j := fun hj => Function.update_of_ne hj _ _
  have hlands : ∀ n, (c.progress i).stage = .between n →
      (Progress.after o (c.progress i) r).stage ≠ .failed := by
    intro n hp
    have hland := ho.lands i n hp
    rwa [hself] at hland
  refine ⟨hsound, hkeys, fun j p l₁ u₁ hj => ?_, fun j hj => ?_, fun j => ?_,
    h.agrees_call hi hnext hlands, fun j ch => ?_, ?_, fun p j ch hp => ?_, fun j => ?_,
    fun j records hseen => ?_⟩
  · by_cases hji : j = i
    · subst hji
      cases (Threads.set_thread_self ..).symm.trans hj
      obtain ⟨req, payload, hasked, htracks⟩ := h.tracks j _ l u hi
      rw [hself]
      exact ⟨req, payload, hasked, (Progress.tracks_op.mp htracks).2 r (next_faithful hnext)⟩
    · rw [hother hji]
      exact h.tracks j p l₁ u₁ ((Threads.set_thread_ne hji ..).symm.trans hj)
  · have hji : j ≠ i := by
      rintro rfl
      cases (Threads.set_thread_self ..).symm.trans hj
    rw [hother hji]
    exact h.fresh j ((Threads.set_thread_ne hji ..).symm.trans hj)
  · by_cases hji : j = i
    · subst hji
      have hu : c.requests.usage j = u := by simp [Requests.usage, hi]
      rw [hself, State.advance, Requests.usage_set, if_pos rfl]
      exact held_after (hu ▸ h.held j) r
    · rw [hother hji, State.advance, Requests.usage_set, if_neg hji]
      exact h.held j
  · refine (List.mem_append.trans (or_congr (h.own j ch) mem_committed)).trans ?_
    by_cases hji : j = i
    · subst hji
      rw [hself]
      constructor
      · rintro (⟨htask, hdone⟩ | ⟨-, hnew, -, htask⟩)
        · exact ⟨htask, stage_done ha htask hdone r⟩
        · exact ⟨htask, hnew⟩
      · rintro ⟨htask, hnew⟩
        by_cases hdone : (c.progress j).stage = .done
        · exact Or.inl ⟨htask, hdone⟩
        · exact Or.inr ⟨rfl, hnew, hdone, htask⟩
    · rw [hother hji]
      exact or_iff_left fun hj => hji hj.1
  · rw [State.advance, List.map_append, List.nodup_append]
    refine ⟨h.once, ?_, fun j hj j' hj' => ?_⟩
    · cases committed _ _ _ <;> simp
    · obtain ⟨⟨_, ch⟩, hch, rfl⟩ := List.mem_map.mp hj
      obtain ⟨⟨_, ch'⟩, hch', rfl⟩ := List.mem_map.mp hj'
      obtain ⟨hi', -, hold, -⟩ := mem_committed.mp hch'
      rintro rfl
      subst hi'
      exact hold ((h.own _ ch).mp hch).2
  · rcases lt_or_ge p c.past.length with hlt | hge
    · rw [State.advance, List.getElem?_append_left hlt] at hp
      exact h.begun p j ch hp
    · exact (h.since j).trans hge
  · exact (h.since j).trans (List.prefix_append _ _).length_le
  · have hpast : c.past <+: (c.advance i o r (k r, l', Usage.after o u r) s').past :=
      List.prefix_append _ _
    by_cases hsame : ((c.advance i o r (k r, l', Usage.after o u r) s').progress j).seen =
        (c.progress j).seen
    · exact (h.seen j records (hsame ▸ hseen)).mono rfl hpast
    obtain rfl : j = i := by
      by_contra hji
      exact hsame (by rw [hother hji])
    have hreads := ho.reads j hsame
    rw [hself] at hsame hseen
    obtain ⟨dir, rfl⟩ := (seen_after r).resolve_left hsame
    obtain rfl : dir = indexDir user := ha
    obtain rfl : r = records := Option.some.inj hseen
    have hindex : c.requests.shared.index.fileSet (indexDir user) = after c.past files := by
      funext f
      exact h.agrees.rest f fun j' _ n _ => hreads j' n
    simp only [next, Option.ite_none_right_eq_some] at hnext
    have hlists := lists_of_perm hnext.1
    rw [hindex, List.prefix_iff_eq_take.mp hpast] at hlists
    exact ⟨c.past.length, h.since j, hpast.length_le, hlists, hlists.oneName⟩

lemma step (h : Inv user files c) (hs : Step env user c c') (ho : Orderly c c') :
    Inv user files c' := by
  obtain ⟨hsound, hkeys⟩ := h.locks_step hs ho
  cases hs with
  | start host req payload hi _ => exact h.start host req payload hi rfl hsound hkeys
  | call r hi hr => exact h.call hi hr ho hsound hkeys

lemma consistent (h : Inv user files c) : Consistent user files c where
  serial := by
    refine ⟨fun i ch hch => ((h.own i ch).mp hch).1, h.once, h.begun, ?_⟩
    intro i reply x l u ch hi hsuccess htask
    obtain ⟨req, payload, hasked, hanswers⟩ := h.tracks i _ l u hi
    have htask' : taskOf req payload = some ch := by
      rw [← htask, State.task, hasked]
      rfl
    have hanswered : Answered user req payload reply (c.progress i) := hanswers
    refine (hanswered.success hsuccess ch htask').imp_left fun hdone => ?_
    exact (h.own i ch).mpr ⟨htask, hdone⟩
  index hnone := by
    funext f
    exact h.agrees.rest f fun i _ n _ => hnone i n
  seen := h.seen
  reply := by
    intro i req payload reply x l u hasked hlist huser hi
    obtain ⟨req', payload', hasked', hanswers⟩ := h.tracks i _ l u hi
    cases hasked.symm.trans hasked'
    have hanswered : Answered user req payload reply (c.progress i) := hanswers
    exact hanswered.listing hlist huser

end Inv

/-- The condition on a run. -/
abbrev OrderlyStep (env : Env) (user : Bytes) (c c' : State) : Prop :=
  Step env user c c' ∧ Orderly c c'

lemma inv_run {s : Store} (hs : s.locks = .initial)
    (h : ReflTransGen (OrderlyStep env user) (.idle s) c) :
    Inv user (s.index.fileSet (indexDir user)) c := by
  induction h with
  | refl => exact inv_idle user hs
  | tail _ hstep ih => exact ih.step hstep.1 hstep.2

/-- As long as the index is not read in the middle of a RENAME and the path locks exclude, a LIST
answers the user's files at one moment between the changes made while it was under way. -/
theorem listings_consistent (env : Env) (user : Bytes) (s : Store) (hs : s.locks = .initial)
    (c : State) (h : ReflTransGen (fun c c' => Step env user c c' ∧ Orderly c c') (.idle s) c) :
    Consistent user (s.index.fileSet (indexDir user)) c :=
  (inv_run hs h).consistent

def lists : Call → Bool
  | .listDirectory _ => true
  | _ => false

/-- What is orderly in any state. -/
def quietly (env : Env) : Next Call Answer ((Local × Usage) × Store) := fun o m r =>
  if lists o = false ∧ o.failed r = false then watched env o m r else none

section Quiet

variable {o : Call} {r : Answer o} {t : Progress}

lemma seen_after (ho : lists o = false) : (Progress.after o t r).seen = t.seen := by
  cases o <;> first | rfl | cases ho

lemma stage_lands (hr : o.failed r = false) {n : UInt64} (ht : t.stage = .between n) :
    (Progress.after o t r).stage ≠ .failed := by
  cases o with
  | addFile dir f size time =>
    cases r with
    | error e => cases hr
    | ok _ => exact nofun
  | removeFile dir f =>
    cases r with
    | error e => cases hr
    | ok _ =>
      rw [Progress.after, ht]
      exact nofun
  | getFileSize dir f => exact nofun
  | _ =>
    intro (hfailed : t.stage = .failed)
    rw [ht] at hfailed
    cases hfailed

end Quiet

section Few

variable {m i : ℕ} {p q : Code (Reply × Bytes)} {l l' : Local} {u u' : Usage} {s' : Store}

lemma run_requests (h : ReflTransGen (OrderlyStep env user) c c') :
    Threads.Run IsRequest (watched env) c.requests c'.requests :=
  h.lift State.requests fun _ _ hstep => hstep.1.requests

lemma reachable_run {s : Store} (hs : s.locks = .initial)
    (h : ReflTransGen (OrderlyStep env user) (.idle s) c) : Reachable env c.requests :=
  ⟨s, hs, run_requests h⟩

/-- One of few requests makes calls that are orderly in any state. -/
lemma run_few (hm : m < 2 ^ 32 - 1) (hreach : Reachable env c.requests)
    (hfew : ∀ j, m ≤ j → c.requests.thread j = none) (hi : i < m)
    (ht : c.requests.thread i = some (p, l, u))
    (h : Steps (quietly env) (p, ((l, u), c.requests.shared)) (q, ((l', u'), s'))) :
    ∃ c', ReflTransGen (OrderlyStep env user) c c' ∧ c'.requests = c.requests.set i (q, l', u') s' ∧
      c'.asked = c.asked ∧ (∀ j, (c'.progress j).seen = (c.progress j).seen) ∧
      (∀ j ≠ i, c'.progress j = c.progress j) ∧
      ∀ x ∈ c'.past, x ∈ c.past ∨ c.task i = some x.2 := by
  generalize hb : (q, ((l', u'), s')) = b at h
  induction h generalizing q l' u' s' with
  | refl =>
    cases hb
    exact ⟨c, .refl, (Threads.set_eq_self ht).symm, rfl, fun _ => rfl, fun _ _ => rfl,
      fun x hx => Or.inl hx⟩
  | @tail d _ _ hs ih =>
    obtain ⟨q₁, ⟨l₁, u₁⟩, s₁⟩ := d
    cases hb
    obtain ⟨c₁, hrun, hrequests, hasked, hseen, hothers, hpast⟩ := ih rfl
    cases hs with
    | @call o k _ _ r hr =>
      obtain ⟨⟨hlists, hok⟩, hnext⟩ := Option.ite_none_right_eq_some.mp hr
      have hi₁ : c₁.requests.thread i = some (.op o k, l₁, u₁) := by
        rw [hrequests, Threads.set_thread_self]
      have hr₁ : watched env o ((l₁, u₁), c₁.requests.shared) r = some ((l', u'), s') := by
        rw [hrequests]
        exact hnext
      have hseen₁ : ∀ j, ((c₁.advance i o r (k r, l', u') s').progress j).seen =
          (c₁.progress j).seen := by
        intro j
        change (Function.update c₁.progress i (Progress.after o (c₁.progress i) r) j).seen = _
        by_cases hj : j = i
        · subst hj
          rw [Function.update_self]
          exact seen_after hlists
        · rw [Function.update_of_ne hj]
      refine ⟨_, hrun.tail ⟨.call r hi₁ hr₁, ?_⟩, ?_, hasked, fun j => (hseen₁ j).trans (hseen j),
        fun j hj => (Function.update_of_ne hj _ _).trans (hothers j hj), fun x hx => ?_⟩
      · refine ⟨fun j hj => (hj (hseen₁ j)).elim, fun j n hbetween => ?_,
          not_wraps_of_few hm (hreach.run (run_requests hrun)) fun j hj => ?_⟩
        · change (Function.update c₁.progress i (Progress.after o (c₁.progress i) r) j).stage ≠
            .failed
          by_cases hj : j = i
          · subst hj
            rw [Function.update_self]
            exact stage_lands hok hbetween
          · rw [Function.update_of_ne hj, hbetween]
            exact nofun
        · rw [hrequests, Threads.set_thread_ne (by omega)]
          exact hfew j hj
      · rw [State.advance, hrequests, Threads.set_set]
      · obtain hx | hx := List.mem_append.mp hx
        · exact hpast x hx
        · obtain ⟨-, -, -, htask⟩ := mem_committed.mp hx
          refine Or.inr ?_
          rw [← htask, State.task, State.task, hasked]

lemma begin_few (hm : m < 2 ^ 32 - 1) (hreach : Reachable env c.requests)
    (hfew : ∀ j, m ≤ j → c.requests.thread j = none) (hi : c.requests.thread i = none)
    (host : Endian) (req : Request) (payload : Bytes) (hl : l.self = i) : OrderlyStep env user c
      (c.begin i (dispatch host user req payload, l, .start) (req, payload)) := by
  refine ⟨.start host req payload hi hl, fun j hj => (hj rfl).elim, fun j n hbetween => ?_,
    not_wraps_of_few hm hreach hfew⟩
  change (c.progress j).stage ≠ .failed
  rw [hbetween]
  exact nofun

end Few

/-- Bob has a file `x`, on the disk and in the index. -/
def stored : Store := { Store.fresh oldVersion with
  index := Index.empty.addFile (indexDir (bytes "bob")) (bytes "x") 3 [] }

def listing : Request := ⟨makeRequest .list 0 0 0, [], []⟩

def renameX : Request := ⟨makeRequest .rename 1 1 0, [], bytes "x"⟩

/-- The first calls of the request, or of what is left of one. -/
def plays (n : ℕ) (c : Code (Reply × Bytes) × Local × Usage) (s : Store) :
    Option (Prog.Running Call Answer Exn (Reply × Bytes) ((Local × Usage) × Store)) :=
  follow (fun o m => oblige .atRoot o (m.1.1, m.2)) (quietly .atRoot) n c.1 (c.2, s)

def renameBegun : Code (Reply × Bytes) × Local × Usage :=
  (dispatch .little (bytes "bob") renameX (bytes "y"), .fresh 0 [] true, .start)

def listBegun : Code (Reply × Bytes) × Local × Usage :=
  (dispatch .little (bytes "bob") listing [], .fresh 1 [] true, .start)

/-- Request 1 is a LIST, and has read the index. -/
def listed (c : State) (records : List FileMetadata) : State :=
  (c.begin 1 listBegun (listing, [])).advance 1 (.listDirectory (indexDir (bytes "bob"))) records
    (.pure (respond CommandType.list.code .ok (FileManager.renderListing records), bytes "bob"),
      .fresh 1 [] true, .start) c.requests.shared

lemma step_listed (env : Env) (c : State) {records : List FileMetadata}
    (hr : records.Perm (c.requests.shared.index.listDirectory (indexDir (bytes "bob")))) :
    Step env (bytes "bob") (c.begin 1 listBegun (listing, [])) (listed c records) := by
  have hbegun : (c.begin 1 listBegun (listing, [])).requests.thread 1 = some listBegun :=
    Threads.set_thread_self ..
  exact .call (o := .listDirectory (indexDir (bytes "bob"))) records hbegun
    (Monitor.watch_eq_some.mpr ⟨if_pos hr, rfl⟩)

/-- Another request reads the index, in which the renamed file still is. -/
lemma lists_during {c : State}
    (h : ReflTransGen (OrderlyStep .atRoot (bytes "bob")) (.idle stored) c)
    (hnone : ∀ j ≠ 0, c.requests.thread j = none)
    (htask : c.task 0 = some (.move (bytes "x") (bytes "y")))
    (hfile : c.requests.shared.index.fileSet (indexDir (bytes "bob")) (bytes "x") ≠ none)
    {records : List FileMetadata}
    (hr : records.Perm (c.requests.shared.index.listDirectory (indexDir (bytes "bob")))) :
    ReflTransGen (OrderlyStep .atRoot (bytes "bob")) c (listed c records) := by
  have hinv := inv_run rfl h
  have hcalm : ∀ j n, (c.progress j).stage ≠ .between n := by
    intro j n hbetween
    by_cases hj : j = 0
    · subst hj
      exact hfile (hinv.agrees.gone 0 _ _ n htask hbetween)
    · rw [(hinv.fresh j (hnone j hj)).1] at hbetween
      cases hbetween
  have hbegin : OrderlyStep .atRoot (bytes "bob") c (c.begin 1 listBegun (listing, [])) :=
    begin_few (m := 1) (by decide) (reachable_run rfl h) (fun j hj => hnone j (by omega))
      (hnone 1 (by decide)) .little listing [] (l := .fresh 1 [] true) rfl
  refine .tail (.single hbegin) ⟨step_listed .atRoot c hr, ?_⟩
  refine ⟨fun _ _ => hcalm, fun j n hbetween => (hcalm j n hbetween).elim, ?_⟩
  refine not_wraps_of_few (m := 2) (by decide) (reachable_run rfl (h.tail hbegin)) fun j hj => ?_
  rw [State.begin, Threads.set_thread_ne (by omega)]
  exact hnone j (by omega)

/-- Request 0 renames `x` to `y`, so far as it has come after some calls. -/
lemma runs_rename {n : ℕ} {q : Code (Reply × Bytes)} {l : Local} {u : Usage} {s : Store}
    (h : plays n renameBegun stored = some (q, ((l, u), s))) :
    ∃ c, ReflTransGen (OrderlyStep .atRoot (bytes "bob")) (.idle stored) c ∧
      c.requests.thread 0 = some (q, l, u) ∧ (∀ j ≠ 0, c.requests.thread j = none) ∧
      c.requests.shared = s ∧ c.task 0 = some (.move (bytes "x") (bytes "y")) ∧
      ∀ x ∈ c.past, x.2 = .move (bytes "x") (bytes "y") := by
  have hbegin : OrderlyStep .atRoot (bytes "bob") (.idle stored)
      ((State.idle stored).begin 0 renameBegun (renameX, bytes "y")) :=
    begin_few (m := 0) (by decide) ⟨stored, rfl, .refl⟩ (fun _ _ => rfl) rfl .little renameX
      (bytes "y") (l := .fresh 0 [] true) rfl
  have hnone : ∀ j ≠ 0, ((State.idle stored).begin 0 renameBegun
      (renameX, bytes "y")).requests.thread j = none := fun j hj => Threads.set_thread_ne hj ..
  obtain ⟨c, hrun, hrequests, hasked, -, -, hpast⟩ := run_few (m := 1) (i := 0) (by decide)
    (reachable_run rfl (.single hbegin)) (fun j hj => hnone j (by omega)) (by decide)
    (Threads.set_thread_self ..) (steps_of_follow h)
  refine ⟨c, .head hbegin hrun, ?_, fun j hj => ?_, ?_, ?_, fun x hx => ?_⟩
  · rw [hrequests, Threads.set_thread_self]
  · rw [hrequests, Threads.set_thread_ne hj]
    exact hnone j hj
  · rw [hrequests, Threads.set_shared]
  · rw [State.task, hasked]
    rfl
  · obtain hx | hx := hpast x hx
    · cases hx
    · exact (Option.some.inj hx).symm

/-- `x` is renamed on the disk, and still in the index. -/
lemma plays_rename : ((plays 10 renameBegun stored).any fun a => !a.1.isOver &&
    (a.2.2.index.fileSet (indexDir (bytes "bob")) (bytes "x") == some 3 &&
      a.2.2.index.listDirectory (indexDir (bytes "bob")) == [⟨bytes "x", 3, []⟩] &&
        (plays 40 (a.1, a.2.1) a.2.2).any fun b => isSuccess b.1)) = true := by
  decide +kernel

/-- While `x` is being renamed it is listed, and then the rename ends. -/
theorem listings_consistent_bob : ∃ c c', ReflTransGen (OrderlyStep .atRoot (bytes "bob"))
      (.idle stored) c ∧ ReflTransGen (OrderlyStep .atRoot (bytes "bob")) c c' ∧
    (∃ p l u, c.requests.thread 0 = some (p, l, u) ∧ p.isOver = false) ∧
    (c.progress 1).seen = some [⟨bytes "x", 3, []⟩] ∧
    (c'.progress 1).seen = some [⟨bytes "x", 3, []⟩] ∧
    (0, .move (bytes "x") (bytes "y")) ∈ c'.past ∧
    Consistent (bytes "bob") (stored.index.fileSet (indexDir (bytes "bob"))) c' := by
  obtain ⟨⟨qa, ⟨la, ua⟩, sa⟩, ha, hrest⟩ := (Option.any_eq_true _ _).mp plays_rename
  obtain ⟨hover, hrest⟩ := Bool.and_eq_true_iff.mp hrest
  obtain ⟨hindex, hrest⟩ := Bool.and_eq_true_iff.mp hrest
  obtain ⟨hfile, hlists⟩ := Bool.and_eq_true_iff.mp hindex
  obtain ⟨⟨qb, ⟨lb, ub⟩, sb⟩, hb, hsuccess⟩ := (Option.any_eq_true _ _).mp hrest
  obtain ⟨reply, name, rfl, hreply⟩ := exists_of_isSuccess hsuccess
  obtain ⟨c, hrun, hthread, hnone, hshared, htask, -⟩ := runs_rename ha
  have hrun₁ : ReflTransGen (OrderlyStep .atRoot (bytes "bob")) (.idle stored)
      (listed c [⟨bytes "x", 3, []⟩]) := by
    refine hrun.trans (lists_during hrun hnone htask ?_ ?_)
    · rw [hshared, eq_of_beq hfile]
      exact nofun
    · rw [hshared, eq_of_beq hlists]
  have hthread₁ : (listed c [⟨bytes "x", 3, []⟩]).requests.thread 0 = some (qa, la, ua) := by
    rw [listed, State.advance, Threads.set_thread_ne (by decide), State.begin,
      Threads.set_thread_ne (by decide), hthread]
  have hfew : ∀ j, 2 ≤ j → (listed c [⟨bytes "x", 3, []⟩]).requests.thread j = none := by
    intro j hj
    rw [listed, State.advance, Threads.set_thread_ne (by omega), State.begin,
      Threads.set_thread_ne (by omega)]
    exact hnone j (by omega)
  have hshared₁ : (listed c [⟨bytes "x", 3, []⟩]).requests.shared = sa := hshared
  have hb₁ : plays 40 (qa, la, ua) (listed c [⟨bytes "x", 3, []⟩]).requests.shared =
      some (.pure (reply, name), ((lb, ub), sb)) := by
    rw [hshared₁]
    exact hb
  obtain ⟨c', hrun', hrequests', hasked', hseen', -, -⟩ := run_few (by decide)
    (reachable_run rfl hrun₁) hfew (by decide) hthread₁ (steps_of_follow hb₁)
  have hconsistent := listings_consistent .atRoot (bytes "bob") stored rfl c' (hrun₁.trans hrun')
  have htask' : c'.task 0 = some (.move (bytes "x") (bytes "y")) := by
    rw [State.task, hasked']
    exact htask
  have hthread' : c'.requests.thread 0 = some (.pure (reply, name), lb, ub) := by
    rw [hrequests', Threads.set_thread_self]
  obtain hpast | ⟨f, g, hmove, hsame⟩ :=
    hconsistent.serial.success 0 reply name lb ub _ hthread' hreply htask'
  · refine ⟨_, c', hrun₁, hrun', ⟨qa, la, ua, hthread₁, by simpa using hover⟩, rfl, ?_, hpast,
      hconsistent⟩
    rw [hseen' 1]
    rfl
  · cases hmove
    exact absurd hsame (by decide)

/-- While `x` is renamed to `y`, neither is listed. -/
theorem listing_misses : ¬ ∀ (env : Env) (user : Bytes) (s : Store), s.locks = .initial → ∀ c,
    Run env user (.idle s) c → ∀ i records, (c.progress i).seen = some records →
      Snapshot (s.index.fileSet (indexDir user)) c i records := by
  intro hall
  have hplays : (plays 12 renameBegun stored).any (fun c =>
      c.2.2.index.listDirectory (indexDir (bytes "bob")) == []) = true := by
    decide +kernel
  obtain ⟨⟨q, ⟨l, u⟩, s⟩, hfollow, hempty⟩ := (Option.any_eq_true _ _).mp hplays
  have hempty : s.index.listDirectory (indexDir (bytes "bob")) = [] := by simpa using hempty
  obtain ⟨c, hrun, -, hnone, hshared, -, hpast⟩ := runs_rename hfollow
  have hperm : [].Perm (c.requests.shared.index.listDirectory (indexDir (bytes "bob"))) := by
    rw [hshared, hempty]
  have hrenames : Run .atRoot (bytes "bob") (.idle stored) c :=
    ReflTransGen.mono (fun _ _ hstep => hstep.1) _ _ hrun
  have hlisted : Run .atRoot (bytes "bob") (.idle stored) (listed c []) :=
    (hrenames.tail (.start .little listing [] (hnone 1 (by decide)) rfl)).tail
      (step_listed .atRoot c hperm)
  obtain ⟨m, -, -, hlists, -⟩ := hall .atRoot (bytes "bob") stored rfl _ hlisted 1 [] rfl
  have hmoves : ∀ x ∈ (listed c []).past.take m, x.2 = .move (bytes "x") (bytes "y") := by
    intro x hx
    rcases List.mem_append.mp (List.mem_of_mem_take hx) with hx | hx
    · exact hpast x hx
    · obtain ⟨-, hdone, hnot, -⟩ := mem_committed.mp hx
      exact (hnot hdone).elim
  have hnofile : ∀ f, after ((listed c []).past.take m)
      (stored.index.fileSet (indexDir (bytes "bob"))) f = none := by
    intro f
    by_contra hf
    obtain ⟨_, hmem, -⟩ := (hlists.name_iff f).mpr hf
    cases hmem
  rcases List.eq_nil_or_concat ((listed c []).past.take m) with hnil | ⟨xs, x, hconcat⟩
  · have hx := hnofile (bytes "x")
    rw [hnil] at hx
    exact absurd hx (by decide +kernel)
  · have hy := hnofile (bytes "y")
    have hlast := hmoves x (by simp [hconcat])
    simp [hconcat, after, hlast, Change.apply] at hy

end Mtfss.ListSnapshot
