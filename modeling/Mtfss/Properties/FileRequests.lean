import Mtfss.Effects.Custody
import Mtfss.Properties.FileIdentity
import Mtfss.Properties.LockExclusion
import Mtfss.Server.FileWork
import Mtfss.System.DiskRules

/-! Requests of any users, followed in what they do to files of plain names. -/

namespace Mtfss.FileRequests

open Effects Paths Server Relation LockExclusion FileIdentity

/-- A user and a file whose names are single components of a path. -/
structure Place where
  user : Bytes
  file : Bytes
  user_plain : IsPlain user
  file_plain : IsPlain file
  deriving DecidableEq

namespace Place

def key (x : Place) : Bytes := filePath x.user x.file

def content (cwd : Cwd) (d : Disk) (x : Place) : Option Bytes := d.content (resolve cwd x.key)

def size (ix : Index) (x : Place) : Option UInt64 := ix.fileSet (indexDir x.user) x.file

variable {cwd : Cwd} {d d' : Disk} {ix : Index} {x y : Place} {node : Option Node} {n : UInt64}
variable {time : Bytes}

lemma ext_names (hu : x.user = y.user) (hf : x.file = y.file) : x = y := by
  cases x
  cases y
  cases hu
  cases hf
  rfl

lemma eq_of_loc (h : resolve cwd x.key = resolve cwd y.key) : x = y := by
  rw [key, key, resolve_file_plain cwd x.user_plain x.file_plain,
    resolve_file_plain cwd y.user_plain y.file_plain, List.append_cancel_left_eq] at h
  obtain ⟨hu, hf⟩ : x.user = y.user ∧ x.file = y.file := by simpa using h
  exact ext_names hu hf

lemma content_sets (h : d.Sets d' (resolve cwd y.key) node) (hne : x ≠ y) :
    x.content cwd d' = x.content cwd d :=
  h.content fun he => hne (eq_of_loc he)

lemma content_modify (f : Bytes → Bytes) (hne : x ≠ y) :
    x.content cwd (d.modify (resolve cwd y.key) f) = x.content cwd d := by
  have hloc : resolve cwd x.key ≠ resolve cwd y.key := fun he => hne (eq_of_loc he)
  rw [content, content, Disk.content, Disk.content, Disk.modify]
  dsimp only
  rw [if_neg hloc]

lemma not_below (hne : x ≠ y) : ¬ resolve cwd y.key <+: resolve cwd x.key := by
  intro h
  have hlen : (resolve cwd y.key).length = (resolve cwd x.key).length := by
    rw [key, key, resolve_file_plain cwd x.user_plain x.file_plain,
      resolve_file_plain cwd y.user_plain y.file_plain]
    simp
  exact hne (eq_of_loc (h.eq_of_length hlen).symm)

/-- What a file has in it goes with it when it is renamed. -/
lemma content_moves (h : d.Moves d' (resolve cwd x.key) (resolve cwd y.key))
    (hne : x ≠ y) (z : Place) : z.content cwd d' =
      if z = y then x.content cwd d else if z = x then none else z.content cwd d := by
  by_cases hzy : z = y
  · rw [if_pos hzy, hzy, content, Disk.content, h.node, Disk.movedNode, if_pos List.prefix_rfl,
      List.drop_length, List.append_nil]
    rfl
  rw [if_neg hzy]
  by_cases hzx : z = x
  · rw [if_pos hzx, hzx, content, Disk.content, h.node, Disk.movedNode, if_neg (not_below hne),
      if_pos List.prefix_rfl]
  · rw [if_neg hzx, content, Disk.content, h.node, Disk.movedNode, if_neg (not_below hzy),
      if_neg (not_below hzx)]
    rfl

lemma size_addFile : x.size (ix.addFile (indexDir y.user) y.file n time) =
    if x = y then some n else x.size ix := by
  split
  · rename_i heq
    rw [heq, size, Index.fileSet_addFile, Function.update_self]
  · rename_i hne
    have hentry : ¬ (normalizePath (indexDir x.user) = normalizePath (indexDir y.user) ∧
        x.file = y.file) := by
      rw [normalizePath_indexDir x.user_plain.toIsName,
        normalizePath_indexDir y.user_plain.toIsName]
      rintro ⟨hu, hf⟩
      exact hne (ext_names (List.append_cancel_left hu) hf)
    rw [size, Index.fileSet, Index.addFile, Index.entry_put, if_neg hentry]
    rfl

lemma size_removeFile : x.size (ix.removeFile (indexDir y.user) y.file) =
    if x = y then none else x.size ix := by
  split
  · rename_i heq
    rw [heq, size, Index.fileSet_removeFile, Function.update_self]
  · rename_i hne
    have hentry : ¬ (normalizePath (indexDir x.user) = normalizePath (indexDir y.user) ∧
        x.file = y.file) := by
      rw [normalizePath_indexDir x.user_plain.toIsName,
        normalizePath_indexDir y.user_plain.toIsName]
      rintro ⟨hu, hf⟩
      exact hne (ext_names (List.append_cancel_left hu) hf)
    rw [size, Index.fileSet, Index.removeFile, Index.entry_drop, if_neg hentry]
    rfl

end Place

/-- The places that a task is about. -/
def own (user : Bytes) (task : Option Change) : Set Place :=
  {x | x.user = user ∧ ∃ ch, task = some ch ∧ x.file ∈ ch.touches}

/-- The task of the user is to rename `x` to `y`. -/
structure Renames (user : Bytes) (task : Option Change) (x y : Place) : Prop where
  apart : x ≠ y
  source : x.user = user
  target : y.user = user
  task : task = some (.move x.file y.file)

/-- The names are single components of a path, the filenames so far as they are accepted at all. -/
def Named (user : Bytes) (names : List Bytes) : Prop :=
  user = [] ∨ (IsPlain user ∧ ∀ f ∈ names, isValidFilename f = true → IsPlain f)

section Own

variable {user p q : Bytes} {task : Option Change} {ch : Change} {x y z : Place} {t : Filing}

lemma own_single (hu : x.user = user) (hts : task = some ch) (hch : ch.touches = [x.file]) :
    y ∈ own user task ↔ y = x := by
  simp only [own, hts, Option.some.injEq, exists_eq_left', hch, List.mem_singleton,
    Set.mem_ofPred_eq]
  constructor
  · rintro ⟨hyu, hyf⟩
    exact Place.ext_names (hyu.trans hu.symm) hyf
  · rintro rfl
    exact ⟨hu, rfl⟩

lemma Renames.mem_iff (h : Renames user task x y) : z ∈ own user task ↔ z = x ∨ z = y := by
  simp only [own, h.task, Option.some.injEq, exists_eq_left', Change.touches, List.mem_cons,
    List.not_mem_nil, or_false, Set.mem_ofPred_eq]
  constructor
  · rintro ⟨hu, hf | hf⟩
    · exact Or.inl (Place.ext_names (hu.trans h.source.symm) hf)
    · exact Or.inr (Place.ext_names (hu.trans h.target.symm) hf)
  · rintro (rfl | rfl)
    · exact ⟨h.source, Or.inl rfl⟩
    · exact ⟨h.target, Or.inr rfl⟩

lemma exists_place {f : Bytes} {names : List Bytes} (hnamed : Named user names)
    (howns : Filing.Owns user t f p) (hf : f ∈ names) :
    ∃ x : Place, x.user = user ∧ x.file = f ∧ x.key = p ∧ x.key ∈ t.held := by
  obtain ⟨hu, hplain⟩ := hnamed.resolve_left howns.user_ne
  have hkey : p = filePath user f := howns.path
  subst hkey
  exact ⟨⟨user, f, hu, hplain f hf howns.valid⟩, rfl, rfl, rfl, howns.held⟩

/-- The place that a request with a task for one file has locked. -/
lemma exists_single {f : Bytes} (hnamed : ∀ ch, task = some ch → Named user ch.touches)
    (htask : task = some ch) (hch : ch.touches = [f]) (howns : Filing.Owns user t f p) :
    ∃ x : Place, x.user = user ∧ x.file = f ∧ x.key = p ∧ x.key ∈ t.held ∧
      ∀ y, y ∈ own user task ↔ y = x := by
  obtain ⟨x, hu, hf, hkey, hheld⟩ := exists_place (hnamed ch htask) howns (by simp [hch])
  exact ⟨x, hu, hf, hkey, hheld, fun y => own_single hu htask (by rw [hch, hf])⟩

/-- The places that a request with a task to rename has locked. -/
lemma exists_renames {f g : Bytes} (hnamed : ∀ ch, task = some ch → Named user ch.touches)
    (htask : task = some (.move f g)) (hpq : p ≠ q) (hp : Filing.Owns user t f p)
    (hq : Filing.Owns user t g q) :
    ∃ x y : Place, Renames user task x y ∧ x.key = p ∧ y.key = q ∧ x.key ∈ t.held ∧
      y.key ∈ t.held := by
  obtain ⟨x, hxu, rfl, rfl, hx⟩ := exists_place (hnamed _ htask) hp List.mem_cons_self
  obtain ⟨y, hyu, rfl, rfl, hy⟩ :=
    exists_place (hnamed _ htask) hq (List.mem_cons_of_mem _ List.mem_cons_self)
  exact ⟨x, y, ⟨fun he => hpq (congrArg Place.key he), hxu, hyu, htask⟩, rfl, rfl, hx, hy⟩

/-- A request changes no file but those that its task is about and that it has locked. -/
lemma content_frame {env : Env} {o : Call} {r : Answer o} {l l' : Local} {s s' : Store}
    (hnamed : ∀ ch, task = some ch → Named user ch.touches)
    (ha : Filing.Allows user task o t) (hr : next env o (l, s) r = some (l', s'))
    (hx : x ∉ own user task ∨ x.key ∉ t.held) :
    x.content env.cwd s'.disk = x.content env.cwd s.disk := by
  have hsingle : ∀ {f p ch}, task = some ch → ch.touches = [f] → Filing.Owns user t f p →
      ∃ y : Place, y.key = p ∧ x ≠ y := by
    intro f p ch htask hch howns
    obtain ⟨y, -, -, hkey, hheld, hown⟩ := exists_single hnamed htask hch howns
    refine ⟨y, hkey, ?_⟩
    rintro rfl
    exact hx.elim (fun h => h ((hown x).mpr rfl)) fun h => h hheld
  by_cases ho : o.writesDisk = false
  · rw [next_disk hr ho]
  cases o with
  | createDirectories p =>
    rw [next, Rules.orThrow_eq_some] at hr
    obtain ⟨-, rfl, hmap⟩ | ⟨-, rfl, hpair⟩ := hr
    · obtain ⟨d, hd, hpair⟩ := Option.map_eq_some_iff.mp hmap
      cases hpair
      exact (Disk.createDirectories_adds hd).content _
    · cases hpair
      rfl
  | openOut p =>
    obtain ⟨-, f, size, htask, howns⟩ := ha
    obtain ⟨y, rfl, hne⟩ := hsingle htask rfl howns
    cases r with
    | true =>
      obtain ⟨d, hd, hpair⟩ := Option.map_eq_some_iff.mp hr
      cases hpair
      exact Place.content_sets (Disk.openOut_sets hd) hne
    | false =>
      simp only [next, Bool.false_eq_true, if_false, Option.ite_none_right_eq_some,
        Option.some.injEq, Prod.mk.injEq] at hr
      rw [← hr.2.2]
  | write p data =>
    obtain ⟨-, f, size, htask, howns⟩ := ha
    obtain ⟨y, rfl, hne⟩ := hsingle htask rfl howns
    cases r with
    | none =>
      cases hr
      exact Place.content_modify _ hne
    | some n =>
      obtain ⟨-, hpair⟩ := Option.ite_none_right_eq_some.mp hr
      cases hpair
      exact Place.content_modify _ hne
  | closeOut p =>
    obtain ⟨-, f, size, htask, howns⟩ := ha
    obtain ⟨y, rfl, hne⟩ := hsingle htask rfl howns
    cases r with
    | none =>
      cases hr
      rfl
    | some n =>
      obtain ⟨-, hpair⟩ := Option.ite_none_right_eq_some.mp hr
      cases hpair
      exact Place.content_modify _ hne
  | fsRemove p =>
    obtain ⟨y, rfl, hne⟩ : ∃ y : Place, y.key = p ∧ x ≠ y := by
      obtain ⟨-, f, size, htask, howns⟩ | ⟨-, f, htask, howns⟩ := ha
      · exact hsingle htask rfl howns
      · exact hsingle htask rfl howns
    rw [next, Rules.orThrow_eq_some] at hr
    obtain ⟨b, rfl, hb⟩ | ⟨-, -, hpair⟩ := hr
    · obtain ⟨⟨b', d⟩, hd, hanswer⟩ := Option.bind_eq_some_iff.mp hb
      obtain ⟨rfl, hpair⟩ := Rules.answer_eq_some.mp hanswer
      cases hpair
      cases b with
      | true => exact Place.content_sets (Disk.remove_sets hd) hne
      | false => rw [(Disk.remove_false hd).1]
    · cases hpair
      rfl
  | fsRename p q =>
    obtain ⟨-, hpq, f, g, htask, hp, hq⟩ := ha
    obtain ⟨y, z, hrenames, rfl, rfl, hy, hz⟩ := exists_renames hnamed htask hpq hp hq
    rw [next, Rules.orThrow_eq_some] at hr
    obtain ⟨-, rfl, hmap⟩ | ⟨-, -, hpair⟩ := hr
    · obtain ⟨d, hd, hpair⟩ := Option.map_eq_some_iff.mp hmap
      cases hpair
      obtain ⟨-, hmoves⟩ := Disk.rename_moves (fun he => hrenames.apart (Place.eq_of_loc he)) hd
      have hne : x ≠ y ∧ x ≠ z := by
        constructor
        · rintro rfl
          exact hx.elim (fun h => h (hrenames.mem_iff.mpr (Or.inl rfl))) fun h => h hy
        · rintro rfl
          exact hx.elim (fun h => h (hrenames.mem_iff.mpr (Or.inr rfl))) fun h => h hz
      rw [Place.content_moves hmoves hrenames.apart, if_neg hne.2, if_neg hne.1]
    · cases hpair
      rfl
  | _ => exact (ho rfl).elim

end Own

/-- Each request has locked the places that it is in the middle of changing, and is as far with them
as it says; all other places are in order. -/
abbrev Tended (user : ℕ → Bytes) (task : ℕ → Option Change) (filing : ℕ → Filing)
    (busy : Work → Prop) (good : Place → Prop) (midway : Bytes → Option Change → Work → Prop) :
    Prop :=
  Custody (fun i => {x : Place | x.key ∈ (filing i).held})
    (fun i => {x | x ∈ own (user i) (task i) ∧ busy (filing i).work}) good
    (fun i => midway (user i) (task i) (filing i).work)

/-- No file is locked by two requests. -/
def Excludes (filing : ℕ → Filing) : Prop :=
  ∀ i j key, i ≠ j → key ∈ (filing i).held → key ∉ (filing j).held

namespace Tended

variable {user : ℕ → Bytes} {task : ℕ → Option Change} {filing : ℕ → Filing} {i : ℕ} {t : Filing}
variable {busy : Work → Prop} {good good' : Place → Prop} {x : Place}
variable {midway midway' : Bytes → Option Change → Work → Prop}

/-- A call that changes no places. -/
lemma aside (h : Tended user task filing busy good midway) (hexcl : Excludes filing)
    (hbusy : busy t.work ↔ busy (filing i).work)
    (hheld : busy t.work → ∀ key ∈ (filing i).held, key ∈ t.held) (hgood : ∀ x, good x → good' x)
    (hmid : ∀ u ts w, midway u ts w → midway' u ts w) (hown : midway' (user i) (task i) t.work) :
    Tended user task (Function.update filing i t) busy good' midway' := by
  have hself : Function.update filing i t i = t := Function.update_self _ _ _
  refine Custody.step h (i := i) (T := ∅) (Set.empty_subset _)
    (fun j hj x hx => hexcl j i x.key hj hx) (fun j hj => ?_) ?_ (fun j hj _ hmidj => ?_) ?_
    (fun x _ hx => hgood x hx) ?_
  · simp only [Function.update_of_ne hj, and_self]
  · rintro x ⟨hx, hb⟩
    rw [hself] at hb ⊢
    exact hheld hb x.key (h.locked i ⟨hx, hbusy.mp hb⟩)
  · rw [Function.update_of_ne hj]
    exact hmid _ _ _ hmidj
  · rwa [hself]
  · rintro x (⟨hx, hb⟩ | hx) hnot
    · refine (hnot ⟨hx, ?_⟩).elim
      rw [hself]
      exact hbusy.mpr hb
    · exact hx.elim

/-- A call that changes places that its request has locked. -/
lemma change (h : Tended user task filing busy good midway) (hexcl : Excludes filing)
    (hlocked : ∀ x ∈ own (user i) (task i), x.key ∈ (filing i).held)
    (hheld : t.held = (filing i).held) (hgood : ∀ x ∉ own (user i) (task i), good x → good' x)
    (hmid : ∀ u ts w, (busy w → ∀ x ∈ own u ts, x ∉ own (user i) (task i)) → midway u ts w →
      midway' u ts w)
    (hown : midway' (user i) (task i) t.work)
    (hdone : ¬ busy t.work → ∀ x ∈ own (user i) (task i), good' x) :
    Tended user task (Function.update filing i t) busy good' midway' := by
  have hself : Function.update filing i t i = t := Function.update_self _ _ _
  refine Custody.step h (i := i) (T := own (user i) (task i)) hlocked
    (fun j hj x hx => hexcl j i x.key hj hx) (fun j hj => ?_) ?_
      (fun j hj hapart hmidj => ?_) ?_ hgood ?_
  · simp only [Function.update_of_ne hj, and_self]
  · rintro x ⟨hx, -⟩
    rw [hself, hheld]
    exact hlocked x hx
  · rw [Function.update_of_ne hj]
    exact hmid _ _ _ (fun hb x hx => hapart x ⟨hx, hb⟩) hmidj
  · rwa [hself]
  · rintro x hx hnot
    have hx : x ∈ own (user i) (task i) := hx.elim And.left id
    refine hdone (fun hb => hnot ⟨hx, ?_⟩) x hx
    rwa [hself]

/-- A request that is not at work begins anything. -/
lemma start {user' : ℕ → Bytes} {task' : ℕ → Option Change}
    (h : Tended user task filing busy good midway) (hidle : ¬ busy (filing i).work)
    (hown : midway (user' i) (task' i) (filing i).work)
    (hothers : ∀ j, j ≠ i → user' j = user j ∧ task' j = task j) :
    Tended user' task' filing busy good midway := by
  have hsame : ∀ j, busy (filing j).work → j ≠ i := by
    rintro j hj rfl
    exact hidle hj
  refine ⟨fun j x hx => ?_, fun j => ?_, fun x hx => h.rest x fun j hj => ?_⟩
  · obtain ⟨hu, ht⟩ := hothers j (hsame j hx.2)
    refine h.locked j ⟨?_, hx.2⟩
    rw [← hu, ← ht]
    exact hx.1
  · by_cases hji : j = i
    · rwa [hji]
    · obtain ⟨hu, ht⟩ := hothers j hji
      rw [hu, ht]
      exact h.midway j
  · obtain ⟨hu, ht⟩ := hothers j (hsame j hj.2)
    refine hx j ⟨?_, hj.2⟩
    rw [hu, ht]
    exact hj.1

lemma locked_own (h : Tended user task filing busy good midway) (hbusy : busy (filing i).work) :
    ∀ x ∈ own (user i) (task i), x.key ∈ (filing i).held := fun _ hx => h.locked i ⟨hx, hbusy⟩

/-- A place is in order where a request has the lock and has changed nothing yet. -/
lemma good_held (h : Tended user task filing busy good midway) (hexcl : Excludes filing)
    (hidle : ¬ busy (filing i).work) (hx : x.key ∈ (filing i).held) : good x := by
  refine h.rest x fun j hj => ?_
  by_cases hji : j = i
  · subst hji
    exact hidle hj.2
  · exact hexcl j i x.key hji (h.locked j hj) hx

end Tended

/-- Requests of any users, with what they were asked and how far they are with it. -/
structure State where
  requests : Requests
  asked : ℕ → Option (Bytes × Request × Bytes)
  filing : ℕ → Filing

namespace State

def idle (s : Store) : State := ⟨.idle s, fun _ => none, fun _ => .start⟩

def user (c : State) (i : ℕ) : Bytes := (c.asked i).elim [] Prod.fst

def task (c : State) (i : ℕ) : Option Change := (c.asked i).bind fun a => taskOf a.2.1 a.2.2

def begin (c : State) (i : ℕ) (t : Code (Reply × Bytes) × Local × Usage)
    (a : Bytes × Request × Bytes) : State where
  requests := c.requests.set i t c.requests.shared
  asked := Function.update c.asked i (some a)
  filing := c.filing

/-- After request `i` has made a call. -/
def advance (c : State) (i : ℕ) (o : Call) (r : Answer o) (t : Code (Reply × Bytes) × Local × Usage)
    (s : Store) : State where
  requests := c.requests.set i t s
  asked := c.asked
  filing := Function.update c.filing i (Filing.after o (c.filing i) r)

variable {c : State} {i j : ℕ}

lemma begin_user (t : Code (Reply × Bytes) × Local × Usage) (a : Bytes × Request × Bytes) :
    (c.begin i t a).user j = if j = i then a.1 else c.user j := by
  by_cases hj : j = i <;> simp [user, begin, hj]

lemma begin_task (t : Code (Reply × Bytes) × Local × Usage) (a : Bytes × Request × Bytes) :
    (c.begin i t a).task j = if j = i then taskOf a.2.1 a.2.2 else c.task j := by
  by_cases hj : j = i <;> simp [task, begin, hj]

end State

inductive Event
  | begins (i : ℕ) (l : Local) (user : Bytes) (req : Request) (payload : Bytes)
  | calls (i : ℕ) (o : Call) (r : Answer o)

/-- A user begins a request, or one of the requests under way makes a call. -/
inductive Step (env : Env) : State → Event → State → Prop
  | start {c i l} (host : Endian) (user : Bytes) (req : Request) (payload : Bytes) :
      c.requests.thread i = none → l.self = i → Step env c (.begins i l user req payload)
        (c.begin i (dispatch host user req payload, l, .start) (user, req, payload))
  | call {c i o k l u l' u' s'} (r : Answer o) : c.requests.thread i = some (.op o k, l, u) →
      watched env o ((l, u), c.requests.shared) r = some ((l', u'), s') →
      Step env c (.calls i o r) (c.advance i o r (k r, l', u') s')

/-- The names of a task are plain, and no upload that has begun to write is answered by a
failure. -/
def Event.Followed (c : State) : Event → Prop
  | .begins _ _ user req payload => ∀ ch, taskOf req payload = some ch → Named user ch.touches
  | .calls i o r => (c.filing i).work.isWriting = true → o.failed r = false

/-- What holds in a run of requests whose names are plain: each goes about its task as it may, and
has those locks alone that it says it has. -/
structure Tracked (c : State) : Prop where
  sound : c.requests.Sound
  keys : ∀ key, OneEntry c.requests key ∧ KeyHeld c.requests key
  files : ∀ i p l u, c.requests.thread i = some (p, l, u) →
    Filing.Files (c.user i) (c.task i) p Filing.Clear (c.filing i)
  fresh : ∀ i, c.requests.thread i = none → c.filing i = .start ∧ c.asked i = none
  named : ∀ i ch, c.task i = some ch → Named (c.user i) ch.touches
  held : ∀ i, (c.filing i).held = (c.requests.usage i).exclusive

section Run

variable {env : Env} {c c' : State} {e : Event} {i j : ℕ}

lemma Step.requests (h : Step env c e c') :
    Threads.Step IsRequest (watched env) c.requests c'.requests := by
  cases h with
  | start host user req payload hi hl => exact .start hi ⟨host, user, req, payload, rfl, hl, rfl⟩
  | call r hi hr => exact .call r hi hr

lemma held_after {o : Call} {t : Filing} {u : Usage} (h : t.held = u.exclusive) (r : Answer o) :
    (Filing.after o t r).held = (Usage.after o u r).exclusive := by
  by_cases ho : o.isLock = false
  · rw [(Usage.after_of_not_lock ho r).2.2, ← h]
    cases o with
    | openOut p => cases r <;> rfl
    | _ => first | rfl | cases ho
  · cases o with
    | acquireLockRef key => cases r <;> exact h
    | _ => first | exact (ho rfl).elim | exact h | simp [Filing.after, Usage.after, h]

lemma tracked_idle {s : Store} (hs : s.locks = .initial) : Tracked (.idle s) where
  sound := Requests.sound_idle s
  keys key := ⟨oneEntry_idle hs key, keyHeld_idle hs key⟩
  files := nofun
  fresh _ _ := ⟨rfl, rfl⟩
  named := nofun
  held _ := rfl

namespace Tracked

lemma exclusive (h : Tracked c) : LockExclusion.Exclusive c.requests :=
  exclusive_of_keys h.sound h.keys

/-- A file that one request has locked is not locked by another. -/
lemma apart (h : Tracked c) (hij : i ≠ j) {key : Bytes} (hi : key ∈ (c.filing i).held) :
    key ∉ (c.filing j).held ∧ key ∉ (c.requests.usage j).shared := by
  rw [h.held] at hi ⊢
  exact h.exclusive.alone key i j hij hi

lemma excludes (h : Tracked c) : Excludes c.filing := fun _ _ _ hne hi => (h.apart hne hi).1

lemma call_allowed {o : Call} {k : Answer o → Code (Reply × Bytes)} {l : Local} {u : Usage}
    (h : Tracked c) (hi : c.requests.thread i = some (.op o k, l, u)) :
    Filing.Allows (c.user i) (c.task i) o (c.filing i) :=
  (Filing.files_op.mp (h.files i _ l u hi)).1

lemma start {l : Local} (h : Tracked c) (host : Endian) (user : Bytes) (req : Request)
    (payload : Bytes) (hi : c.requests.thread i = none)
    (hnamed : ∀ ch, taskOf req payload = some ch → Named user ch.touches)
    (hc' : c' = c.begin i (dispatch host user req payload, l, .start) (user, req, payload))
    (hsound : c'.requests.Sound)
    (hkeys : ∀ key, OneEntry c'.requests key ∧ KeyHeld c'.requests key) : Tracked c' := by
  obtain ⟨hfiling, hasked⟩ := h.fresh i hi
  subst hc'
  refine ⟨hsound, hkeys, fun j p l' u hj => ?_, fun j hj => ?_, fun j ch hj => ?_, fun j => ?_⟩
  · rw [State.begin_user, State.begin_task]
    by_cases hji : j = i
    · subst hji
      cases (Threads.set_thread_self ..).symm.trans hj
      rw [if_pos rfl, if_pos rfl, State.begin, hfiling]
      exact Filing.files_dispatch host user req payload
    · rw [if_neg hji, if_neg hji]
      exact h.files j p l' u ((Threads.set_thread_ne hji ..).symm.trans hj)
  · have hji : j ≠ i := by
      rintro rfl
      cases (Threads.set_thread_self ..).symm.trans hj
    obtain ⟨hf, ha⟩ := h.fresh j ((Threads.set_thread_ne hji ..).symm.trans hj)
    exact ⟨hf, (Function.update_of_ne hji _ _).trans ha⟩
  · rw [State.begin_user]
    rw [State.begin_task] at hj
    by_cases hji : j = i
    · rw [if_pos hji] at hj ⊢
      exact hnamed ch hj
    · rw [if_neg hji] at hj ⊢
      exact h.named j ch hj
  · rw [State.begin, Requests.usage_set]
    split
    · rename_i hji
      rw [hji, hfiling]
      rfl
    · exact h.held j

lemma call {o : Call} {k : Answer o → Code (Reply × Bytes)} {l l' : Local} {u u' : Usage}
    {s' : Store} {r : Answer o} (h : Tracked c) (hi : c.requests.thread i = some (.op o k, l, u))
    (hr : watched env o ((l, u), c.requests.shared) r = some ((l', u'), s'))
    (hok : (c.filing i).work.isWriting = true → o.failed r = false)
    (hsound : (c.advance i o r (k r, l', u') s').requests.Sound)
    (hkeys : ∀ key, OneEntry (c.advance i o r (k r, l', u') s').requests key ∧
      KeyHeld (c.advance i o r (k r, l', u') s').requests key) :
    Tracked (c.advance i o r (k r, l', u') s') := by
  obtain ⟨hnext, rfl⟩ := Monitor.watch_eq_some.mp hr
  obtain ⟨-, hfiles⟩ := Filing.files_op.mp (h.files i _ l u hi)
  have hself : (c.advance i o r (k r, l', Usage.after o u r) s').filing i =
      Filing.after o (c.filing i) r := Function.update_self _ _ _
  have hother : ∀ {j}, j ≠ i → (c.advance i o r (k r, l', Usage.after o u r) s').filing j =
      c.filing j := fun hj => Function.update_of_ne hj _ _
  refine ⟨hsound, hkeys, fun j p l₁ u₁ hj => ?_, fun j hj => ?_, h.named, fun j => ?_⟩
  · by_cases hji : j = i
    · subst hji
      cases (Threads.set_thread_self ..).symm.trans hj
      rw [hself]
      exact hfiles r ⟨next_apt hnext, hok⟩
    · rw [hother hji]
      exact h.files j p l₁ u₁ ((Threads.set_thread_ne hji ..).symm.trans hj)
  · have hji : j ≠ i := by
      rintro rfl
      cases (Threads.set_thread_self ..).symm.trans hj
    rw [hother hji]
    exact h.fresh j ((Threads.set_thread_ne hji ..).symm.trans hj)
  · by_cases hji : j = i
    · subst hji
      have hu : c.requests.usage j = u := by simp [Requests.usage, hi]
      rw [hself, State.advance, Requests.usage_set, if_pos rfl]
      exact held_after (hu ▸ h.held j) r
    · rw [hother hji, State.advance, Requests.usage_set, if_neg hji]
      exact h.held j

lemma step (h : Tracked c) (hs : Step env c e c') (he : e.Followed c)
    (hcounts : ¬ Wraps c.requests c'.requests) : Tracked c' := by
  have hsound : c'.requests.Sound := h.sound.step hs.requests
  have hkeys : ∀ key, OneEntry c'.requests key ∧ KeyHeld c'.requests key := fun key =>
    ⟨(h.keys key).1.touch (h.sound.touch hs.requests key) hcounts,
      (h.keys key).2.step h.sound hs.requests⟩
  cases hs with
  | start host user req payload hi _ => exact h.start host user req payload hi he rfl hsound hkeys
  | call r hi hr => exact h.call hi hr he hsound hkeys

/-- A call of one request changes no file that another has locked. -/
lemma content_kept {o : Call} {k : Answer o → Code (Reply × Bytes)} {l l' : Local} {u u' : Usage}
    {s' : Store} {r : Answer o} {x : Place} (h : Tracked c)
    (hi : c.requests.thread i = some (.op o k, l, u))
    (hr : watched env o ((l, u), c.requests.shared) r = some ((l', u'), s'))
    (hx : x ∉ own (c.user i) (c.task i) ∨ x.key ∉ (c.filing i).held) :
    x.content env.cwd s'.disk = x.content env.cwd c.requests.shared.disk :=
  content_frame (h.named i) (h.call_allowed hi) (Monitor.watch_eq_some.mp hr).1 hx

lemma clear_of_finished (h : Tracked c) {r : Except Exn (Reply × Bytes)} {l : Local} {u : Usage}
    (hi : c.requests.thread i = some (.ofExcept r, l, u)) : (c.filing i).work = .clear :=
  (safe_ofExcept r).mp (h.files i _ l u hi)

lemma clear_of_quiescent (h : Tracked c) (hquiet : c.requests.Quiescent) (i : ℕ) :
    (c.filing i).work = .clear := by
  cases hi : c.requests.thread i with
  | none => rw [(h.fresh i hi).1]; rfl
  | some t =>
    obtain ⟨p, l, u⟩ := t
    obtain ⟨r, rfl⟩ := hquiet i p (l, u) hi
    exact h.clear_of_finished hi

end Tracked

end Run

end Mtfss.FileRequests
