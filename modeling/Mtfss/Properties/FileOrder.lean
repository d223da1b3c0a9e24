import Mtfss.Maps.Deeds
import Mtfss.Properties.Agreement
import Mtfss.Server.Course

/-! What the requests of any users are to do one after the other, and what the files are to a
request that is in the middle of its task. -/

namespace Mtfss.SerialFiles

open Effects Paths Server Relation LockExclusion FileRequests Agreement

/-- A user and a filename, with what is in the file. -/
abbrev Files := Bytes × Bytes → Option Bytes

def contents (cwd : Cwd) (d : Disk) : Files := fun x => d.content (resolve cwd (filePath x.1 x.2))

def names (x : Place) : Bytes × Bytes := (x.user, x.file)

lemma names_inj {x y : Place} (h : names x = names y) : x = y :=
  Place.ext_names (congrArg Prod.fst h) (congrArg Prod.snd h)

/-- What a user asks for, who sends `input` after the request. -/
def deedOf (user input : Bytes) : Change → Deed (Bytes × Bytes) Bytes
  | .put f n => .put (user, f) (input.take n.toNat)
  | .drop f => .drop (user, f)
  | .move f g => .move (user, f) (user, g)

/-- Requests, with the connection of each when it began and how far it is, the files as they are
after the requests that have taken effect, and these in their order. -/
structure State extends FileRequests.State where
  before : ℕ → Conn
  course : ℕ → Course
  files : Files
  order : List (ℕ × Deed (Bytes × Bytes) Bytes)

namespace State

def idle (cwd : Cwd) (s : Store) : State :=
  ⟨.idle s, fun _ => (Local.fresh 0 [] true).conn, fun _ => .start (Local.fresh 0 [] true).conn,
    contents cwd s.disk, []⟩

def deed (c : State) (i : ℕ) : Option (Deed (Bytes × Bytes) Bytes) :=
  (c.task i).map (deedOf (c.user i) (c.before i).input)

def goesOn (c : State) (i : ℕ) (o : Call) (r : Answer o) : Course :=
  (Course.next (c.task i) o (c.course i) r).getD (c.course i)

/-- What request `i` has done for good with its call. -/
def effect (c : State) (i : ℕ) (o : Call) (r : Answer o) : Option (Deed (Bytes × Bytes) Bytes) :=
  if (c.goesOn i o r).made = true ∧ (c.course i).made = false then c.deed i else none

def after (c : State) (b : FileRequests.State) : Event → State
  | .begins i l _ _ _ => { c with
      toState := b
      before := Function.update c.before i l.conn
      course := Function.update c.course i (.start l.conn) }
  | .calls i o r => { c with
      toState := b
      course := Function.update c.course i (c.goesOn i o r)
      files := (c.effect i o r).elim c.files (fun e => e.apply c.files)
      order := c.order ++ ((c.effect i o r).map (fun e => (i, e))).toList }

def Finished (c : State) (i : ℕ) : Prop := ∃ r l u, c.requests.thread i = some (.ofExcept r, l, u)

def Unfinished (c : State) (i : ℕ) : Prop :=
  ∃ p l u, c.requests.thread i = some (p, l, u) ∧ ∀ r, p ≠ .ofExcept r

end State

def Step (env : Env) (c : State) (e : Event) (c' : State) : Prop :=
  ∃ b, FileRequests.Step env c.toState e b ∧ c' = c.after b e

/-- Besides, only files are removed. -/
def Careful (env : Env) (c : State) (e : Event) : Prop :=
  Agreement.Careful env c.toState e ∧ ∀ i p, e = .calls i (.fsRemove p) (.ok true) →
    c.requests.shared.disk.isRegularFile (resolve env.cwd p) = true

/-- The condition on a run. -/
def CarefulStep (env : Env) (c c' : State) : Prop :=
  ∃ e, Step env c e c' ∧ Careful env c e ∧ ¬ Wraps c.requests c'.requests

/-- The requests in `order` have done what they were asked, one after the other, each once. -/
structure Serial (env : Env) (s : Store) (c : State) : Prop where
  plays : Deed.Plays (contents env.cwd s.disk) (c.order.map Prod.snd) c.files
  once : (c.order.map Prod.fst).Nodup
  asked : ∀ i e, (i, e) ∈ c.order → c.deed i = some e
  arrived : ∀ i e, (i, e) ∈ c.order → ∀ f n, c.task i = some (.put f n) →
    n.toNat ≤ (c.before i).input.length
  /-- where no request is at work, the files are as that makes them, and so are their records -/
  settled : ∀ x : Place, (∀ i, c.Unfinished i → x ∉ own (c.user i) (c.task i)) →
    x.content env.cwd c.requests.shared.disk = c.files (names x) ∧
      Matches (x.size c.requests.shared.index) (c.files (names x))
  /-- a success is in the order, unless it was to rename a file to itself -/
  success : ∀ i r l u ch, c.requests.thread i = some (.ofExcept r, l, u) → Course.Succeeds r →
    c.task i = some ch →
      (i, deedOf (c.user i) (c.before i).input ch) ∈ c.order ∨ Course.Same (c.user i) ch
  /-- a failure is not, unless a log has failed after the effect -/
  failure : ∀ i r l u, c.requests.thread i = some (.ofExcept r, l, u) → ¬ Course.Succeeds r →
    (c.course i).marred = false → ∀ e, (i, e) ∉ c.order

/-- The order goes on with requests that were not over, and has in it only requests that have
begun. -/
structure GoesOn (c c' : State) : Prop where
  follows : ∃ rest, c'.order = c.order ++ rest ∧ ∀ a ∈ rest, ¬ c.Finished a.1
  begun : ∀ a ∈ c.order, c.asked a.1 ≠ none

section Viewed

variable {cwd : Cwd} {user : ℕ → Bytes} {task : ℕ → Option Change} {filing : ℕ → Filing}
variable {ix ix' : Index} {d d' : Disk} {files files' : Files} {i : ℕ} {t : Filing} {x y : Place}

/-- What the files are to a request in the middle of its task. -/
def Pending (size : Place → Option UInt64) (content : Place → Option Bytes) (files : Files)
    (user : Bytes) (task : Option Change) : Work → Prop
  | .clear => True
  | .writing _ => ∃ x total, x.user = user ∧ task = some (.put x.file total) ∧
      Matches (size x) (files (names x))
  | .removed => ∃ x, x.user = user ∧ task = some (.drop x.file) ∧ files (names x) ≠ none
  | .moved | .sized _ | .between _ => ∃ x y, Renames user task x y ∧ files (names x) ≠ none ∧
      content y = files (names x) ∧ files (names y) = none

lemma Pending.congr {size size' : Place → Option UInt64} {content content' : Place → Option Bytes}
    {u : Bytes} {ts : Option Change} {w : Work} (h : Pending size content files u ts w)
    (hsize : w.isWriting = true → ∀ x ∈ own u ts, size' x = size x)
    (hcontent : ∀ x ∈ own u ts, content' x = content x)
    (hfiles : ∀ x ∈ own u ts, files' (names x) = files (names x)) :
    Pending size' content' files' u ts w := by
  have hmove : (∃ x y, Renames u ts x y ∧ files (names x) ≠ none ∧ content y = files (names x) ∧
      files (names y) = none) → ∃ x y, Renames u ts x y ∧ files' (names x) ≠ none ∧
        content' y = files' (names x) ∧ files' (names y) = none := by
    rintro ⟨x, y, hr, hx, hc, hy⟩
    have hxo : x ∈ own u ts := hr.mem_iff.mpr (Or.inl rfl)
    have hyo : y ∈ own u ts := hr.mem_iff.mpr (Or.inr rfl)
    rw [← hfiles x hxo] at hx hc
    rw [← hfiles y hyo] at hy
    exact ⟨x, y, hr, hx, (hcontent y hyo).trans hc, hy⟩
  cases w with
  | clear => trivial
  | writing n =>
    obtain ⟨x, total, hu, hts, hx⟩ := h
    have hxo : x ∈ own u ts := (own_single hu hts rfl).mpr rfl
    rw [← hfiles x hxo, ← hsize rfl x hxo] at hx
    exact ⟨x, total, hu, hts, hx⟩
  | removed =>
    obtain ⟨x, hu, hts, hx⟩ := h
    rw [← hfiles x ((own_single hu hts rfl).mpr rfl)] at hx
    exact ⟨x, hu, hts, hx⟩
  | moved => exact hmove h
  | sized n => exact hmove h
  | between n => exact hmove h

/-- Where no request is in the middle of its task, the files are as those before have made them. -/
abbrev Viewed (cwd : Cwd) (user : ℕ → Bytes) (task : ℕ → Option Change) (filing : ℕ → Filing)
    (ix : Index) (d : Disk) (files : Files) : Prop :=
  Tended user task filing (· ≠ .clear) (fun x => x.content cwd d = files (names x))
    (Pending (Place.size ix) (Place.content cwd d) files)

/-- A call that changes no file and no record. -/
lemma Viewed.aside (h : Viewed cwd user task filing ix d files) (hexcl : Excludes filing)
    (hwork : t.work = (filing i).work)
    (hheld : t.work ≠ .clear → ∀ key ∈ (filing i).held, key ∈ t.held)
    (hsize : ∀ x : Place, x.size ix' = x.size ix)
    (hcontent : ∀ x : Place, x.content cwd d' = x.content cwd d) :
    Viewed cwd user task (Function.update filing i t) ix' d' files := by
  refine Tended.aside h hexcl (by rw [hwork]) hheld (fun x hx => ?_) (fun u ts w hw => ?_) ?_
  · rwa [hcontent]
  · exact hw.congr (fun _ x _ => hsize x) (fun x _ => hcontent x) fun _ _ => rfl
  · rw [hwork]
    exact (h.midway i).congr (fun _ x _ => hsize x) (fun x _ => hcontent x) fun _ _ => rfl

/-- A call that changes places that its request has locked. -/
lemma Viewed.change (h : Viewed cwd user task filing ix d files) (hexcl : Excludes filing)
    (hlocked : ∀ x ∈ own (user i) (task i), x.key ∈ (filing i).held)
    (hheld : t.held = (filing i).held)
    (hsize : ∀ x : Place, x ∉ own (user i) (task i) → x.size ix' = x.size ix)
    (hcontent : ∀ x : Place, x ∉ own (user i) (task i) → x.content cwd d' = x.content cwd d)
    (hfiles : ∀ x : Place, x ∉ own (user i) (task i) → files' (names x) = files (names x))
    (hmid : Pending (Place.size ix') (Place.content cwd d') files' (user i) (task i) t.work)
    (hdone : t.work = .clear → ∀ x ∈ own (user i) (task i), x.content cwd d' = files' (names x)) :
    Viewed cwd user task (Function.update filing i t) ix' d' files' := by
  refine Tended.change h hexcl hlocked hheld (fun x hx hgood => ?_) (fun u ts w hout hw => ?_) hmid
    fun hclear => hdone (not_not.mp hclear)
  · rwa [hcontent x hx, hfiles x hx]
  · by_cases hclear : w = .clear
    · rw [hclear]
      trivial
    · exact hw.congr (fun _ x hx => hsize x (hout hclear x hx))
        (fun x hx => hcontent x (hout hclear x hx)) fun x hx => hfiles x (hout hclear x hx)

end Viewed

namespace Viewed

open Rules

variable {env : Env} {user : ℕ → Bytes} {task : ℕ → Option Change} {filing : ℕ → Filing}
variable {i : ℕ} {l l' : Local} {s s' : Store} {files : Files}

lemma openOut {p : Bytes} (h : Viewed env.cwd user task filing s.index s.disk files)
    (hkept : Kept env.cwd user task filing s.index s.disk) (hexcl : Excludes filing)
    (hnamed : ∀ ch, task i = some ch → Named (user i) ch.touches)
    (ha : Filing.Allows (user i) (task i) (.openOut p) (filing i))
    (hr : next env (.openOut p) (l, s) true = some (l', s')) :
    Viewed env.cwd user task
      (Function.update filing i { filing i with work := .writing 0 }) s'.index
      s'.disk files := by
  have hframe : ∀ y ∉ own (user i) (task i), y.content env.cwd s'.disk = y.content env.cwd s.disk :=
    fun y hy => content_frame hnamed ha hr (Or.inl hy)
  obtain ⟨hclear, f, size, htask, howns⟩ := ha
  obtain ⟨x, hu, rfl, rfl, hheld, hown⟩ := exists_single hnamed htask rfl howns
  have hidle : ¬ (filing i).work ≠ .clear := not_not.mpr hclear
  have hmatches : Matches (x.size s.index) (x.content env.cwd s.disk) :=
    hkept.good_held hexcl hidle hheld
  rw [h.good_held hexcl hidle hheld] at hmatches
  obtain ⟨d, hd, hpair⟩ := Option.map_eq_some_iff.mp hr
  cases hpair
  refine h.change hexcl (fun y hy => ?_) rfl (fun _ _ => rfl) hframe (fun _ _ => rfl)
    ⟨x, size, hu, htask, hmatches⟩ (by rintro ⟨⟩)
  rwa [(hown y).mp hy]

lemma write {p data : Bytes} {n m : ℕ} (h : Viewed env.cwd user task filing s.index s.disk files)
    (hexcl : Excludes filing) (hnamed : ∀ ch, task i = some ch → Named (user i) ch.touches)
    (hwork : (filing i).work = .writing n)
    (ha : Filing.Allows (user i) (task i) (.write p data) (filing i))
    (hr : next env (.write p data) (l, s) none = some (l', s')) :
    Viewed env.cwd user task
      (Function.update filing i { filing i with work := .writing m }) s'.index
      s'.disk files := by
  have hframe : ∀ y ∉ own (user i) (task i), y.content env.cwd s'.disk = y.content env.cwd s.disk :=
    fun y hy => content_frame hnamed ha hr (Or.inl hy)
  have hmid := h.midway i
  rw [hwork] at hmid
  cases hr
  exact h.change hexcl (h.locked_own (by simp [hwork])) rfl (fun _ _ => rfl) hframe (fun _ _ => rfl)
    hmid (by rintro ⟨⟩)

/-- What a removal leaves of a file. -/
lemma content_removed {x : Place} {b : Bool}
    (hr : next env (.fsRemove x.key) (l, s) (.ok b) = some (l', s')) :
    x.content env.cwd s'.disk = none := by
  obtain ⟨⟨b', d⟩, hd, hanswer⟩ := Option.bind_eq_some_iff.mp hr
  obtain ⟨rfl, hpair⟩ := answer_eq_some.mp hanswer
  cases hpair
  cases b with
  | false =>
    obtain ⟨rfl, hnone⟩ := Disk.remove_false hd
    rw [Place.content, Disk.content, hnone]
  | true => rw [Place.content, Disk.content, (Disk.remove_sets hd).at]

lemma removeWritten {p : Bytes} {n : ℕ} {r : Except Exn Bool}
    (h : Viewed env.cwd user task filing s.index s.disk files) (hexcl : Excludes filing)
    (hnamed : ∀ ch, task i = some ch → Named (user i) ch.touches)
    (hwork : (filing i).work = .writing n)
    (ha : Filing.Allows (user i) (task i) (.fsRemove p) (filing i))
    (hok : (Call.fsRemove p).failed r = false)
    (hnew : ∀ ch, task i = some ch → ∀ f ∈ ch.touches,
      s.index.fileExists (indexDir (user i)) f = false)
    (hr : next env (.fsRemove p) (l, s) r = some (l', s')) :
    Viewed env.cwd user task (Function.update filing i { filing i with work := .clear }) s'.index
      s'.disk files := by
  have hframe : ∀ y ∉ own (user i) (task i), y.content env.cwd s'.disk = y.content env.cwd s.disk :=
    fun y hy => content_frame hnamed ha hr (Or.inl hy)
  obtain ⟨-, f, size, htask, howns⟩ | ⟨hclear, -⟩ := ha
  swap
  · rw [hwork] at hclear
    cases hclear
  obtain ⟨x, hu, rfl, rfl, -, hown⟩ := exists_single hnamed htask rfl howns
  have hmid := h.midway i
  rw [hwork] at hmid
  obtain ⟨y, total, hyu, htask', hy⟩ := hmid
  obtain rfl := (hown y).mp ((own_single hyu htask' rfl).mpr rfl)
  rcases r with e | b
  · cases hok
  have hindex : s'.index = s.index := next_index hr rfl
  refine h.change hexcl (h.locked_own (by simp [hwork])) rfl (fun _ _ => by rw [hindex]) hframe
    (fun _ _ => rfl) trivial fun _ z hz => ?_
  obtain rfl := (hown z).mp hz
  have hnone := hnew _ htask z.file List.mem_cons_self
  rw [Index.fileExists_eq, Option.isSome_eq_false_iff, Option.isNone_iff_eq_none, ← hu] at hnone
  rw [Matches, Place.size, hnone] at hy
  rw [content_removed hr]
  exact (Option.map_eq_none_iff.mp hy.symm).symm

lemma remove {p : Bytes} (h : Viewed env.cwd user task filing s.index s.disk files)
    (hexcl : Excludes filing) (hnamed : ∀ ch, task i = some ch → Named (user i) ch.touches)
    (hwork : (filing i).work = .clear)
    (ha : Filing.Allows (user i) (task i) (.fsRemove p) (filing i))
    (hfile : s.disk.isRegularFile (resolve env.cwd p) = true)
    (hr : next env (.fsRemove p) (l, s) (.ok true) = some (l', s')) :
    Viewed env.cwd user task (Function.update filing i { filing i with work := .removed }) s'.index
      s'.disk files := by
  have hframe : ∀ y ∉ own (user i) (task i), y.content env.cwd s'.disk = y.content env.cwd s.disk :=
    fun y hy => content_frame hnamed ha hr (Or.inl hy)
  obtain ⟨hwriting, -⟩ | ⟨-, f, htask, howns⟩ := ha
  · rw [hwork] at hwriting
    cases hwriting
  obtain ⟨x, hu, rfl, rfl, hheld, hown⟩ := exists_single hnamed htask rfl howns
  have hview : x.content env.cwd s.disk = files (names x) :=
    h.good_held hexcl (not_not.mpr hwork) hheld
  obtain ⟨bs, hbs⟩ := Option.isSome_iff_exists.mp hfile
  have hthere : files (names x) ≠ none := by
    rw [← hview, Place.content, hbs]
    exact Option.some_ne_none bs
  have hindex : s'.index = s.index := next_index hr rfl
  refine h.change hexcl (fun y hy => ?_) rfl (fun _ _ => by rw [hindex]) hframe (fun _ _ => rfl)
    ⟨x, hu, htask, hthere⟩ (by rintro ⟨⟩)
  rwa [(hown y).mp hy]

lemma rename {p q : Bytes} (h : Viewed env.cwd user task filing s.index s.disk files)
    (hexcl : Excludes filing) (hnamed : ∀ ch, task i = some ch → Named (user i) ch.touches)
    (ha : Filing.Allows (user i) (task i) (.fsRename p q) (filing i))
    (hfile : s.disk.isRegularFile (resolve env.cwd p) = true)
    (hfree : ∀ y : Place, y.key = q → y.key ∈ (filing i).held → y.content env.cwd s.disk = none)
    (hr : next env (.fsRename p q) (l, s) (.ok ()) = some (l', s')) :
    Viewed env.cwd user task (Function.update filing i { filing i with work := .moved }) s'.index
      s'.disk files := by
  have hframe : ∀ y ∉ own (user i) (task i), y.content env.cwd s'.disk = y.content env.cwd s.disk :=
    fun y hy => content_frame hnamed ha hr (Or.inl hy)
  obtain ⟨hwork, hpq, f, g, htask, hp, hq⟩ := ha
  obtain ⟨x, y, hrenames, rfl, rfl, hxheld, hyheld⟩ := exists_renames hnamed htask hpq hp hq
  have hidle : ¬ (filing i).work ≠ .clear := not_not.mpr hwork
  have hx : x.content env.cwd s.disk = files (names x) := h.good_held hexcl hidle hxheld
  have hy : y.content env.cwd s.disk = files (names y) := h.good_held hexcl hidle hyheld
  rw [hfree y rfl hyheld] at hy
  obtain ⟨d, hd, hpair⟩ := Option.map_eq_some_iff.mp hr
  cases hpair
  obtain ⟨-, hmoves⟩ := Disk.rename_moves (fun he => hrenames.apart (Place.eq_of_loc he)) hd
  obtain ⟨bs, hbs⟩ := Option.isSome_iff_exists.mp hfile
  have hthere : files (names x) ≠ none := by
    rw [← hx, Place.content, hbs]
    exact Option.some_ne_none bs
  refine h.change hexcl (fun z hz => ?_) rfl (fun _ _ => rfl) hframe (fun _ _ => rfl)
    ⟨x, y, hrenames, hthere, ?_, hy.symm⟩ (by rintro ⟨⟩)
  · obtain rfl | rfl := hrenames.mem_iff.mp hz
    · exact hxheld
    · exact hyheld
  · rw [Place.content_moves hmoves hrenames.apart, if_pos rfl, hx]

/-- A call between the renaming of a file and its last record. -/
lemma inside {t : Filing} {ix' : Index} (h : Viewed env.cwd user task filing s.index s.disk files)
    (hexcl : Excludes filing) (hbusy : (filing i).work ≠ .clear) (hheld : t.held = (filing i).held)
    (hsize : ∀ x : Place, x ∉ own (user i) (task i) → x.size ix' = x.size s.index)
    (hmid : Pending (Place.size ix') (Place.content env.cwd s.disk) files (user i) (task i) t.work)
    (hwork : t.work ≠ .clear) :
    Viewed env.cwd user task (Function.update filing i t) ix' s.disk files :=
  h.change hexcl (h.locked_own hbusy) hheld hsize (fun _ _ => rfl) (fun _ _ => rfl) hmid
    fun hclear => (hwork hclear).elim

lemma apply_frame {ch : Change} {x : Place} (input : Bytes) (htask : task i = some ch)
    (hx : x ∉ own (user i) (task i)) :
    (deedOf (user i) input ch).apply files (names x) = files (names x) := by
  refine Deed.apply_of_notMem fun hmem => hx ?_
  have hkeys : (deedOf (user i) input ch).keys = ch.touches.map (fun f => (user i, f)) := by
    cases ch <;> rfl
  rw [hkeys, List.mem_map] at hmem
  obtain ⟨f, hf, hname⟩ := hmem
  obtain ⟨hu, rfl⟩ := Prod.mk.inj hname
  exact ⟨hu.symm, ch, htask, hf⟩

lemma drop {dir f : Bytes} (h : Viewed env.cwd user task filing s.index s.disk files)
    (hkept : Kept env.cwd user task filing s.index s.disk) (hexcl : Excludes filing) (input : Bytes)
    (hdir : dir = indexDir (user i)) (htask : task i = some (.drop f))
    (hwork : (filing i).work = .removed) :
    (deedOf (user i) input (.drop f)).Legal files ∧
      Viewed env.cwd user task (Function.update filing i { filing i with work := .clear })
        (s.index.removeFile dir f) s.disk ((deedOf (user i) input (.drop f)).apply files) := by
  have hmid := h.midway i
  have hgone := hkept.midway i
  rw [hwork] at hmid hgone
  obtain ⟨x, hu, htask', hthere⟩ := hmid
  obtain ⟨x', hu', htask'', hnone⟩ := hgone
  cases htask.symm.trans htask'
  have hown : ∀ {y}, y ∈ own (user i) (task i) ↔ y = x := own_single hu htask rfl
  obtain rfl : x' = x := hown.mp ((own_single hu' htask'' rfl).mpr rfl)
  have hname : names x' = (user i, x'.file) := by rw [← hu, names]
  rw [hname] at hthere
  refine ⟨hthere, ?_⟩
  refine h.change hexcl (h.locked_own (by simp [hwork])) rfl (fun y hy => ?_) (fun _ _ => rfl)
    (fun y hy => apply_frame input htask hy) trivial fun _ y hy => ?_
  · rw [hdir, ← hu, Place.size_removeFile, if_neg (mt hown.mpr hy)]
  · obtain rfl := hown.mp hy
    rw [hnone, hname]
    exact Deed.apply_drop.symm

lemma put {dir f input : Bytes} {n : UInt64} {time : Bytes}
    (h : Viewed env.cwd user task filing s.index s.disk files) (hexcl : Excludes filing)
    (hdir : dir = indexDir (user i)) (htask : task i = some (.put f n))
    (hwork : (filing i).work = .writing n.toNat)
    (hdata : ∀ x ∈ own (user i) (task i), x.content env.cwd s.disk = some (input.take n.toNat)) :
    Viewed env.cwd user task (Function.update filing i { filing i with work := .clear })
      (s.index.addFile dir f n time) s.disk ((deedOf (user i) input (.put f n)).apply files) := by
  have hmid := h.midway i
  rw [hwork] at hmid
  obtain ⟨x, total, hu, htask', -⟩ := hmid
  cases htask.symm.trans htask'
  have hown : ∀ {y}, y ∈ own (user i) (task i) ↔ y = x := own_single hu htask rfl
  have hname : names x = (user i, x.file) := by rw [← hu, names]
  refine h.change hexcl (h.locked_own (by simp [hwork])) rfl (fun y hy => ?_) (fun _ _ => rfl)
    (fun y hy => apply_frame input htask hy) trivial fun _ y hy => ?_
  · rw [hdir, ← hu, Place.size_addFile, if_neg (mt hown.mpr hy)]
  · have hy' := hown.mp hy
    rw [hdata y hy, hy', hname]
    exact (Deed.apply_put _).symm

lemma move {dir f g : Bytes} {n : UInt64} {time : Bytes}
    (h : Viewed env.cwd user task filing s.index s.disk files)
    (hkept : Kept env.cwd user task filing s.index s.disk) (hexcl : Excludes filing) (input : Bytes)
    (hdir : dir = indexDir (user i)) (htask : task i = some (.move f g))
    (hwork : (filing i).work = .between n) :
    (deedOf (user i) input (.move f g)).Legal files ∧
      Viewed env.cwd user task (Function.update filing i { filing i with work := .clear })
        (s.index.addFile dir g n time) s.disk
          ((deedOf (user i) input (.move f g)).apply files) := by
  have hmid := h.midway i
  have hgone := hkept.midway i
  rw [hwork] at hmid hgone
  obtain ⟨x, y, hrenames, hthere, hy, hfree⟩ := hmid
  obtain ⟨x', y', hrenames', hx, -⟩ := hgone
  cases htask.symm.trans hrenames.task
  obtain rfl : x' = x := by
    have htasks := hrenames'.task.symm.trans hrenames.task
    rw [Option.some.injEq, Change.move.injEq] at htasks
    exact Place.ext_names (hrenames'.source.trans hrenames.source.symm) htasks.1
  have hxname : names x' = (user i, x'.file) := by rw [← hrenames.source, names]
  have hyname : names y = (user i, y.file) := by rw [← hrenames.target, names]
  have hne : (user i, x'.file) ≠ (user i, y.file) := by
    rw [← hxname, ← hyname]
    exact fun he => hrenames.apart (names_inj he)
  rw [hxname] at hthere hy
  rw [hyname] at hfree
  refine ⟨⟨hthere, hfree⟩, ?_⟩
  refine h.change hexcl (h.locked_own (by simp [hwork])) rfl (fun z hz => ?_) (fun _ _ => rfl)
    (fun z hz => apply_frame input htask hz) trivial fun _ z hz => ?_
  · rw [hdir, ← hrenames.target, Place.size_addFile,
      if_neg fun he => hz (hrenames.mem_iff.mpr (Or.inr he))]
  · obtain rfl | rfl := hrenames.mem_iff.mp hz
    · rw [hx, hxname]
      exact (Deed.apply_move_source hne).symm
    · rw [hy, hyname]
      exact Deed.apply_move_target.symm

end Viewed

end Mtfss.SerialFiles
