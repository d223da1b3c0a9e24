import Mtfss.Properties.FileRequests

/-! When the index has a record of each file on disk, with its length, and of no other. -/

namespace Mtfss.Agreement

open Effects Paths Server Relation LockExclusion FileIdentity FileRequests

/-- The record and the file are both there, with one size, or neither is. -/
def Matches (size : Option UInt64) (content : Option Bytes) : Prop :=
  size.map UInt64.toNat = content.map List.length

/-- What a request in the middle of its task has made of its places. -/
def Underway (size : Place → Option UInt64) (content : Place → Option Bytes) (user : Bytes)
    (task : Option Change) : Work → Prop
  | .clear => True
  | .writing n => ∃ x total, x.user = user ∧ task = some (.put x.file total) ∧
      (content x).map List.length = some n
  | .removed => ∃ x, x.user = user ∧ task = some (.drop x.file) ∧ content x = none
  | .moved => ∃ x y n, Renames user task x y ∧ content x = none ∧ size x = some n ∧
      (content y).map List.length = some n.toNat
  | .sized n => ∃ x y, Renames user task x y ∧ content x = none ∧
      (content y).map List.length = some n.toNat
  | .between n => ∃ x y, Renames user task x y ∧ content x = none ∧ size x = none ∧
      (content y).map List.length = some n.toNat

section Kept

variable {cwd : Cwd} {user : ℕ → Bytes} {task : ℕ → Option Change} {filing : ℕ → Filing}
variable {ix ix' : Index} {d d' : Disk} {i : ℕ} {t : Filing} {x y : Place}

lemma Underway.congr {size size' : Place → Option UInt64} {content content' : Place → Option Bytes}
    {u : Bytes} {ts : Option Change} {w : Work} (h : Underway size content u ts w)
    (hsize : ∀ x ∈ own u ts, size' x = size x) (hcontent : ∀ x ∈ own u ts, content' x = content x) :
    Underway size' content' u ts w := by
  cases w with
  | clear => trivial
  | writing n =>
    obtain ⟨x, total, hu, hts, hx⟩ := h
    rw [← hcontent x ((own_single hu hts rfl).mpr rfl)] at hx
    exact ⟨x, total, hu, hts, hx⟩
  | removed =>
    obtain ⟨x, hu, hts, hx⟩ := h
    rw [← hcontent x ((own_single hu hts rfl).mpr rfl)] at hx
    exact ⟨x, hu, hts, hx⟩
  | moved =>
    obtain ⟨x, y, n, hr, hx, hn, hy⟩ := h
    rw [← hcontent x (hr.mem_iff.mpr (Or.inl rfl))] at hx
    rw [← hsize x (hr.mem_iff.mpr (Or.inl rfl))] at hn
    rw [← hcontent y (hr.mem_iff.mpr (Or.inr rfl))] at hy
    exact ⟨x, y, n, hr, hx, hn, hy⟩
  | sized n =>
    obtain ⟨x, y, hr, hx, hy⟩ := h
    rw [← hcontent x (hr.mem_iff.mpr (Or.inl rfl))] at hx
    rw [← hcontent y (hr.mem_iff.mpr (Or.inr rfl))] at hy
    exact ⟨x, y, hr, hx, hy⟩
  | between n =>
    obtain ⟨x, y, hr, hx, hn, hy⟩ := h
    rw [← hcontent x (hr.mem_iff.mpr (Or.inl rfl))] at hx
    rw [← hsize x (hr.mem_iff.mpr (Or.inl rfl))] at hn
    rw [← hcontent y (hr.mem_iff.mpr (Or.inr rfl))] at hy
    exact ⟨x, y, hr, hx, hn, hy⟩

/-- Index and disk match wherever no request is in the middle of its task. -/
abbrev Kept (cwd : Cwd) (user : ℕ → Bytes) (task : ℕ → Option Change) (filing : ℕ → Filing)
    (ix : Index) (d : Disk) : Prop :=
  Tended user task filing (· ≠ .clear) (fun x => Matches (x.size ix) (x.content cwd d))
    (Underway (Place.size ix) (Place.content cwd d))

/-- A call that changes no record and no file. -/
lemma Kept.aside (h : Kept cwd user task filing ix d) (hexcl : Excludes filing)
    (hwork : t.work = (filing i).work)
    (hheld : t.work ≠ .clear → ∀ key ∈ (filing i).held, key ∈ t.held)
    (hsize : ∀ x : Place, x.size ix' = x.size ix)
    (hcontent : ∀ x : Place, x.content cwd d' = x.content cwd d) :
    Kept cwd user task (Function.update filing i t) ix' d' := by
  refine Tended.aside h hexcl (by rw [hwork]) hheld (fun x hx => ?_) (fun u ts w hw => ?_) ?_
  · rwa [hsize, hcontent]
  · exact hw.congr (fun x _ => hsize x) fun x _ => hcontent x
  · rw [hwork]
    exact (h.midway i).congr (fun x _ => hsize x) fun x _ => hcontent x

/-- A call that changes places that its request has locked. -/
lemma Kept.change (h : Kept cwd user task filing ix d) (hexcl : Excludes filing)
    (hlocked : ∀ x ∈ own (user i) (task i), x.key ∈ (filing i).held)
    (hheld : t.held = (filing i).held)
    (hsize : ∀ x : Place, x ∉ own (user i) (task i) → x.size ix' = x.size ix)
    (hcontent : ∀ x : Place, x ∉ own (user i) (task i) → x.content cwd d' = x.content cwd d)
    (hmid : Underway (Place.size ix') (Place.content cwd d') (user i) (task i) t.work)
    (hdone : t.work = .clear →
      ∀ x ∈ own (user i) (task i), Matches (x.size ix') (x.content cwd d')) :
    Kept cwd user task (Function.update filing i t) ix' d' := by
  refine Tended.change h hexcl hlocked hheld (fun x hx hgood => ?_) (fun u ts w hout hw => ?_) hmid
    fun hclear => hdone (not_not.mp hclear)
  · rwa [hsize x hx, hcontent x hx]
  · by_cases hclear : w = .clear
    · rw [hclear]
      trivial
    · exact hw.congr (fun x hx => hsize x (hout hclear x hx)) fun x hx =>
        hcontent x (hout hclear x hx)

end Kept

namespace Kept

open Rules

variable {env : Env} {user : ℕ → Bytes} {task : ℕ → Option Change} {filing : ℕ → Filing}
variable {i : ℕ} {l l' : Local} {s s' : Store}

lemma openOut {p : Bytes} (h : Kept env.cwd user task filing s.index s.disk)
    (hexcl : Excludes filing) (hnamed : ∀ ch, task i = some ch → Named (user i) ch.touches)
    (ha : Filing.Allows (user i) (task i) (.openOut p) (filing i))
    (hr : next env (.openOut p) (l, s) true = some (l', s')) :
    Kept env.cwd user task (Function.update filing i { filing i with work := .writing 0 }) s'.index
      s'.disk := by
  have hframe : ∀ y ∉ own (user i) (task i), y.content env.cwd s'.disk = y.content env.cwd s.disk :=
    fun y hy => content_frame hnamed ha hr (Or.inl hy)
  obtain ⟨-, f, size, htask, howns⟩ := ha
  obtain ⟨x, hu, rfl, rfl, hheld, hown⟩ := exists_single hnamed htask rfl howns
  obtain ⟨d, hd, hpair⟩ := Option.map_eq_some_iff.mp hr
  cases hpair
  refine h.change hexcl (fun y hy => ?_) rfl (fun _ _ => rfl) hframe ⟨x, size, hu, htask, ?_⟩ nofun
  · rwa [(hown y).mp hy]
  · rw [Place.content, Disk.content, (Disk.openOut_sets hd).at]
    rfl

lemma write {p data : Bytes} {n : ℕ} (h : Kept env.cwd user task filing s.index s.disk)
    (hexcl : Excludes filing) (hnamed : ∀ ch, task i = some ch → Named (user i) ch.touches)
    (hwork : (filing i).work = .writing n)
    (ha : Filing.Allows (user i) (task i) (.write p data) (filing i))
    (hr : next env (.write p data) (l, s) none = some (l', s')) :
    Kept env.cwd user task (Function.update filing i
      { filing i with work := .writing (n + data.length) }) s'.index s'.disk := by
  have hframe : ∀ y ∉ own (user i) (task i), y.content env.cwd s'.disk = y.content env.cwd s.disk :=
    fun y hy => content_frame hnamed ha hr (Or.inl hy)
  obtain ⟨-, f, size, htask, howns⟩ := ha
  obtain ⟨x, hu, rfl, rfl, -, hown⟩ := exists_single hnamed htask rfl howns
  have hmid := h.midway i
  rw [hwork] at hmid
  obtain ⟨y, total, hyu, htask', hy⟩ := hmid
  obtain rfl := (hown y).mp ((own_single hyu htask' rfl).mpr rfl)
  cases hr
  obtain ⟨c, hc, hlen⟩ := Option.map_eq_some_iff.mp hy
  have hsets := Disk.modify_sets (Disk.content_eq_some.mp hc) (· ++ data)
  refine h.change hexcl (h.locked_own (by simp [hwork])) rfl (fun _ _ => rfl) hframe
    ⟨y, size, hu, htask, ?_⟩ nofun
  rw [Place.content, Disk.content, hsets.at]
  simp [hlen]

/-- An upload that has failed removes what it has written. -/
lemma removeWritten {p : Bytes} {n : ℕ} {r : Except Exn Bool}
    (h : Kept env.cwd user task filing s.index s.disk) (hexcl : Excludes filing)
    (hnamed : ∀ ch, task i = some ch → Named (user i) ch.touches)
    (hwork : (filing i).work = .writing n)
    (ha : Filing.Allows (user i) (task i) (.fsRemove p) (filing i))
    (hok : (Call.fsRemove p).failed r = false)
    (hnew : ∀ ch, task i = some ch → ∀ f ∈ ch.touches,
      s.index.fileExists (indexDir (user i)) f = false)
    (hr : next env (.fsRemove p) (l, s) r = some (l', s')) :
    Kept env.cwd user task (Function.update filing i { filing i with work := .clear }) s'.index
      s'.disk := by
  have hframe : ∀ y ∉ own (user i) (task i), y.content env.cwd s'.disk = y.content env.cwd s.disk :=
    fun y hy => content_frame hnamed ha hr (Or.inl hy)
  obtain ⟨-, f, size, htask, howns⟩ | ⟨hclear, -⟩ := ha
  swap
  · rw [hwork] at hclear
    cases hclear
  obtain ⟨x, hu, rfl, rfl, -, hown⟩ := exists_single hnamed htask rfl howns
  have hmid := h.midway i
  rw [hwork] at hmid
  obtain ⟨y, total, hyu, htask', hy⟩ := hmid
  obtain rfl := (hown y).mp ((own_single hyu htask' rfl).mpr rfl)
  obtain ⟨c, hc, -⟩ := Option.map_eq_some_iff.mp hy
  rw [next, orThrow_eq_some] at hr
  obtain ⟨b, rfl, hb⟩ | ⟨-, rfl, -⟩ := hr
  swap
  · cases hok
  obtain ⟨⟨b', d⟩, hd, hanswer⟩ := Option.bind_eq_some_iff.mp hb
  obtain ⟨rfl, hpair⟩ := answer_eq_some.mp hanswer
  cases hpair
  cases b with
  | false =>
    obtain ⟨-, hnone⟩ := Disk.remove_false hd
    rw [Place.content, Disk.content, hnone] at hc
    cases hc
  | true =>
    refine h.change hexcl (h.locked_own (by simp [hwork])) rfl (fun _ _ => rfl) hframe trivial
      fun _ z hz => ?_
    obtain rfl := (hown z).mp hz
    have hnone := hnew _ htask z.file List.mem_cons_self
    rw [Index.fileExists_eq, Option.isSome_eq_false_iff, Option.isNone_iff_eq_none, ← hu] at hnone
    rw [Matches, Place.size, hnone, Place.content, Disk.content, (Disk.remove_sets hd).at]
    rfl

lemma remove {p : Bytes} (h : Kept env.cwd user task filing s.index s.disk)
    (hexcl : Excludes filing)
    (hnamed : ∀ ch, task i = some ch → Named (user i) ch.touches) (hwork : (filing i).work = .clear)
    (ha : Filing.Allows (user i) (task i) (.fsRemove p) (filing i))
    (hr : next env (.fsRemove p) (l, s) (.ok true) = some (l', s')) :
    Kept env.cwd user task (Function.update filing i { filing i with work := .removed }) s'.index
      s'.disk := by
  have hframe : ∀ y ∉ own (user i) (task i), y.content env.cwd s'.disk = y.content env.cwd s.disk :=
    fun y hy => content_frame hnamed ha hr (Or.inl hy)
  obtain ⟨hwriting, -⟩ | ⟨-, f, htask, howns⟩ := ha
  · rw [hwork] at hwriting
    cases hwriting
  obtain ⟨x, hu, rfl, rfl, hheld, hown⟩ := exists_single hnamed htask rfl howns
  obtain ⟨⟨b', d⟩, hd, hanswer⟩ := Option.bind_eq_some_iff.mp hr
  obtain ⟨rfl, hpair⟩ := answer_eq_some.mp hanswer
  cases hpair
  refine h.change hexcl (fun y hy => ?_) rfl (fun _ _ => rfl) hframe ⟨x, hu, htask, ?_⟩ nofun
  · rwa [(hown y).mp hy]
  · rw [Place.content, Disk.content, (Disk.remove_sets hd).at]

lemma rename {p q : Bytes} (h : Kept env.cwd user task filing s.index s.disk)
    (hexcl : Excludes filing) (hnamed : ∀ ch, task i = some ch → Named (user i) ch.touches)
    (ha : Filing.Allows (user i) (task i) (.fsRename p q) (filing i))
    (hfile : s.disk.isRegularFile (resolve env.cwd p) = true)
    (hr : next env (.fsRename p q) (l, s) (.ok ()) = some (l', s')) :
    Kept env.cwd user task (Function.update filing i { filing i with work := .moved }) s'.index
      s'.disk := by
  have hframe : ∀ y ∉ own (user i) (task i), y.content env.cwd s'.disk = y.content env.cwd s.disk :=
    fun y hy => content_frame hnamed ha hr (Or.inl hy)
  obtain ⟨hwork, hpq, f, g, htask, hp, hq⟩ := ha
  obtain ⟨x, y, hrenames, rfl, rfl, hxheld, hyheld⟩ := exists_renames hnamed htask hpq hp hq
  obtain ⟨d, hd, hpair⟩ := Option.map_eq_some_iff.mp hr
  cases hpair
  obtain ⟨-, hmoves⟩ := Disk.rename_moves (fun he => hrenames.apart (Place.eq_of_loc he)) hd
  obtain ⟨c, hc⟩ := Option.isSome_iff_exists.mp hfile
  have hmatches : Matches (x.size s.index) (x.content env.cwd s.disk) :=
    h.good_held hexcl (not_not.mpr hwork) hxheld
  rw [Matches, Place.content, hc] at hmatches
  obtain ⟨n, hn, hlen⟩ := Option.map_eq_some_iff.mp hmatches
  refine h.change hexcl (fun z hz => ?_) rfl (fun _ _ => rfl) hframe ⟨x, y, n, hrenames, ?_, hn, ?_⟩
    (by rintro ⟨⟩)
  · obtain rfl | rfl := hrenames.mem_iff.mp hz
    · exact hxheld
    · exact hyheld
  · rw [Place.content_moves hmoves hrenames.apart, if_neg hrenames.apart, if_pos rfl]
  · rw [Place.content_moves hmoves hrenames.apart, if_pos rfl, Place.content, hc, hlen]
    rfl

lemma measure {dir f : Bytes} {n : UInt64} (h : Kept env.cwd user task filing s.index s.disk)
    (hexcl : Excludes filing) (hwork : (filing i).work = .moved)
    (ha : Filing.Allows (user i) (task i) (.getFileSize dir f) (filing i))
    (hr : n = s.index.getFileSize dir f) :
    Kept env.cwd user task (Function.update filing i { filing i with work := .sized n }) s.index
      s.disk := by
  have hmid := h.midway i
  rw [hwork] at hmid
  obtain ⟨x, y, m, hrenames, hx, hm, hy⟩ := hmid
  obtain ⟨rfl, -, g, hch⟩ := ha _ hrenames.task
  cases hch
  have hsize : n = m := by
    rw [hr, Index.getFileSize_eq, ← hrenames.source]
    exact congrArg (Option.getD · 0) hm
  refine h.change hexcl (h.locked_own (by simp [hwork])) rfl (fun _ _ => rfl)
    (fun _ _ => rfl) ?_ nofun
  exact ⟨x, y, hrenames, hx, by rwa [hsize]⟩

lemma removeFile {dir f : Bytes} (h : Kept env.cwd user task filing s.index s.disk)
    (hexcl : Excludes filing)
    (ha : Filing.Allows (user i) (task i) (.removeFile dir f) (filing i)) :
    Kept env.cwd user task (Function.update filing i
      { filing i with work := (filing i).work.dropped (.ok ()) }) (s.index.removeFile dir f)
        s.disk := by
  have hmid := h.midway i
  obtain ⟨rfl, ⟨htask, hwork⟩ | ⟨g, n, htask, hwork⟩⟩ := ha
  · rw [hwork] at hmid ⊢
    obtain ⟨x, hu, htask', hx⟩ := hmid
    cases htask.symm.trans htask'
    have hown : ∀ {y}, y ∈ own (user i) (task i) ↔ y = x := own_single hu htask rfl
    rw [← hu]
    refine h.change hexcl (h.locked_own (by simp [hwork])) rfl (fun y hy => ?_) (fun _ _ => rfl)
      trivial fun _ y hy => ?_
    · rw [Place.size_removeFile, if_neg (mt hown.mpr hy)]
    · obtain rfl := hown.mp hy
      rw [Matches, Place.size_removeFile, if_pos rfl, hx]
      rfl
  · rw [hwork] at hmid ⊢
    obtain ⟨x, y, hrenames, hx, hy⟩ := hmid
    cases htask.symm.trans hrenames.task
    rw [← hrenames.source]
    refine h.change hexcl (h.locked_own (by simp [hwork])) rfl (fun z hz => ?_) (fun _ _ => rfl) ?_
      nofun
    · rw [Place.size_removeFile, if_neg fun he => hz (hrenames.mem_iff.mpr (Or.inl he))]
    · exact ⟨x, y, hrenames, hx, by rw [Place.size_removeFile, if_pos rfl], hy⟩

lemma addFile {dir f : Bytes} {n : UInt64} {time : Bytes}
    (h : Kept env.cwd user task filing s.index s.disk) (hexcl : Excludes filing)
    (ha : Filing.Allows (user i) (task i) (.addFile dir f n time) (filing i)) :
    Kept env.cwd user task (Function.update filing i { filing i with work := .clear })
      (s.index.addFile dir f n time) s.disk := by
  have hmid := h.midway i
  obtain ⟨rfl, ⟨htask, hwork⟩ | ⟨g, htask, hwork⟩⟩ := ha
  · rw [hwork] at hmid
    obtain ⟨x, total, hu, htask', hx⟩ := hmid
    cases htask.symm.trans htask'
    have hown : ∀ {y}, y ∈ own (user i) (task i) ↔ y = x := own_single hu htask rfl
    rw [← hu]
    refine h.change hexcl (h.locked_own (by simp [hwork])) rfl (fun y hy => ?_) (fun _ _ => rfl)
      trivial fun _ y hy => ?_
    · rw [Place.size_addFile, if_neg (mt hown.mpr hy)]
    · obtain rfl := hown.mp hy
      rw [Matches, Place.size_addFile, if_pos rfl, hx]
      rfl
  · rw [hwork] at hmid
    obtain ⟨x, y, hrenames, hx, hn, hy⟩ := hmid
    cases htask.symm.trans hrenames.task
    rw [← hrenames.target]
    refine h.change hexcl (h.locked_own (by simp [hwork])) rfl (fun z hz => ?_) (fun _ _ => rfl)
      trivial fun _ z hz => ?_
    · rw [Place.size_addFile, if_neg fun he => hz (hrenames.mem_iff.mpr (Or.inr he))]
    · obtain rfl | rfl := hrenames.mem_iff.mp hz
      · rw [Matches, Place.size_addFile, if_neg hrenames.apart, hn, hx]
        rfl
      · rw [Matches, Place.size_addFile, if_pos rfl, hy]
        rfl

end Kept

/-- In the middle of its task nothing fails that a request asks of the system, no upload that is cut
off had a file before, and only files are renamed. -/
structure Smooth (env : Env) (c : State) (i : ℕ) (o : Call) (r : Answer o) : Prop where
  succeeds : (c.filing i).work ≠ .clear → o.failed r = false
  new : ∀ p, o = .fsRemove p → (c.filing i).work.isWriting = true → ∀ ch, c.task i = some ch →
    ∀ f ∈ ch.touches, c.requests.shared.index.fileExists (indexDir (c.user i)) f = false
  file : ∀ p q, o = .fsRename p q →
    c.requests.shared.disk.isRegularFile (resolve env.cwd p) = true

def Careful (env : Env) (c : State) : Event → Prop
  | .begins _ _ user req payload => ∀ ch, taskOf req payload = some ch → Named user ch.touches
  | .calls i o r => Smooth env c i o r

/-- The condition on a run. -/
def CarefulStep (env : Env) (c c' : State) : Prop :=
  ∃ e, Step env c e c' ∧ Careful env c e ∧ ¬ Wraps c.requests c'.requests

abbrev KeptIn (cwd : Cwd) (c : State) (filing : ℕ → Filing) (s : Store) : Prop :=
  Kept cwd c.user c.task filing s.index s.disk

section Call

open Rules

variable {env : Env} {c : State} {i : ℕ} {o : Call} {r : Answer o} {l l' : Local} {s' : Store}

lemma kept_same (h : KeptIn env.cwd c c.filing c.requests.shared) (hexcl : Excludes c.filing)
    {t : Filing} (hwork : t.work = (c.filing i).work)
    (hheld : t.work ≠ .clear → ∀ key ∈ (c.filing i).held, key ∈ t.held)
    (hindex : s'.index = c.requests.shared.index)
    (hdisk : ∀ m, s'.disk.content m = c.requests.shared.disk.content m) :
    KeptIn env.cwd c (Function.update c.filing i t) s' := by
  refine h.aside hexcl hwork hheld (fun x => ?_) fun x => hdisk _
  rw [hindex]

lemma kept_call (h : KeptIn env.cwd c c.filing c.requests.shared) (hexcl : Excludes c.filing)
    (hnamed : ∀ ch, c.task i = some ch → Named (c.user i) ch.touches)
    (ha : Filing.Allows (c.user i) (c.task i) o (c.filing i)) (hs : Smooth env c i o r)
    (hr : next env o (l, c.requests.shared) r = some (l', s')) :
    KeptIn env.cwd c (Function.update c.filing i (Filing.after o (c.filing i) r)) s' := by
  have hsame : o.writesDisk = false → o.writesIndex = false →
      (Filing.after o (c.filing i) r).work = (c.filing i).work →
      ((Filing.after o (c.filing i) r).work ≠ .clear →
        ∀ key ∈ (c.filing i).held, key ∈ (Filing.after o (c.filing i) r).held) →
      KeptIn env.cwd c (Function.update c.filing i (Filing.after o (c.filing i) r)) s' := by
    intro hd hi hwork hheld
    refine kept_same h hexcl hwork hheld (next_index hr hi) fun m => ?_
    rw [next_disk hr hd]
  cases o with
  | lock key => exact hsame rfl rfl rfl fun _ key hkey => List.mem_cons_of_mem _ hkey
  | lockBoth key₁ key₂ =>
    exact hsame rfl rfl rfl fun _ key hkey => List.mem_cons_of_mem _ (List.mem_cons_of_mem _ hkey)
  | unlock key => exact hsame rfl rfl rfl fun hbusy => (hbusy ha).elim
  | createDirectories p =>
    rw [next, orThrow_eq_some] at hr
    obtain ⟨-, rfl, hmap⟩ | ⟨-, rfl, hpair⟩ := hr
    · obtain ⟨d, hd, hpair⟩ := Option.map_eq_some_iff.mp hmap
      cases hpair
      exact kept_same h hexcl rfl (fun _ key hkey => hkey) rfl
        fun m => (Disk.createDirectories_adds hd).content m
    · cases hpair
      exact kept_same h hexcl rfl (fun _ key hkey => hkey) rfl fun _ => rfl
  | openOut p =>
    cases r with
    | true => exact h.openOut hexcl hnamed ha hr
    | false =>
      simp only [next, Bool.false_eq_true, if_false, Option.ite_none_right_eq_some,
        Option.some.injEq, Prod.mk.injEq] at hr
      obtain ⟨-, -, rfl⟩ := hr
      exact kept_same h hexcl rfl (fun _ key hkey => hkey) rfl fun _ => rfl
  | write p data =>
    obtain ⟨n, hwork⟩ := Work.isWriting_iff.mp ha.1
    have hok := hs.succeeds (by simp [hwork])
    cases r with
    | some k => cases hok
    | none =>
      rw [Filing.after, hwork]
      exact h.write hexcl hnamed hwork ha hr
  | closeOut p =>
    obtain ⟨n, hwork⟩ := Work.isWriting_iff.mp ha.1
    have hok := hs.succeeds (by simp [hwork])
    cases r with
    | some k => cases hok
    | none =>
      cases hr
      exact kept_same h hexcl rfl (fun _ key hkey => hkey) rfl fun _ => rfl
  | fsRemove p =>
    obtain ⟨hwriting, -⟩ | ⟨hclear, -⟩ := id ha
    · obtain ⟨n, hwork⟩ := Work.isWriting_iff.mp hwriting
      have hok := hs.succeeds (by simp [hwork])
      rw [Filing.after, hwork]
      exact h.removeWritten hexcl hnamed hwork ha hok (hs.new p rfl hwriting) hr
    rw [Filing.after, hclear]
    have hkeep : ∀ b, (∀ m, s'.disk.content m = c.requests.shared.disk.content m) →
        s'.index = c.requests.shared.index → Work.erased .clear b = .clear →
        KeptIn env.cwd c (Function.update c.filing i
          { c.filing i with work := Work.erased .clear b }) s' := by
      intro b hd hi hb
      exact kept_same h hexcl (hb.trans hclear.symm) (fun hbusy => (hbusy hb).elim) hi hd
    rcases r with e | b
    · rw [next, orThrow_eq_some] at hr
      obtain ⟨_, ⟨⟩, -⟩ | ⟨-, -, hpair⟩ := hr
      cases hpair
      exact hkeep _ (fun _ => rfl) rfl rfl
    · cases b with
      | true => exact h.remove hexcl hnamed hclear ha hr
      | false =>
        obtain ⟨⟨b', d⟩, hd, hanswer⟩ := Option.bind_eq_some_iff.mp hr
        obtain ⟨rfl, hpair⟩ := answer_eq_some.mp hanswer
        cases hpair
        obtain ⟨rfl, -⟩ := Disk.remove_false hd
        exact hkeep _ (fun _ => rfl) rfl rfl
  | fsRename p q =>
    rcases r with e | _
    · rw [next, orThrow_eq_some] at hr
      obtain ⟨_, ⟨⟩, -⟩ | ⟨-, -, hpair⟩ := hr
      cases hpair
      exact kept_same h hexcl ha.1.symm (fun hbusy => (hbusy rfl).elim) rfl fun _ => rfl
    · exact h.rename hexcl hnamed ha (hs.file p q rfl) hr
  | getFileSize dir f =>
    obtain ⟨hn, hpair⟩ := answer_eq_some.mp hr
    cases hpair
    by_cases hmoved : (c.filing i).work = .moved
    · rw [Filing.after, hmoved]
      exact h.measure hexcl hmoved ha hn
    · have hwork : (Filing.after (.getFileSize dir f) (c.filing i) r).work = (c.filing i).work := by
        rw [Filing.after]
        cases hw : (c.filing i).work <;> first | rfl | exact (hmoved hw).elim
      exact kept_same h hexcl hwork (fun _ key hkey => hkey) rfl fun _ => rfl
  | removeFile dir f =>
    have hbusy : (c.filing i).work ≠ .clear := by
      obtain ⟨-, ⟨-, hwork⟩ | ⟨g, n, -, hwork⟩⟩ := id ha <;> simp [hwork]
    have hok := hs.succeeds hbusy
    rcases r with e | _
    · cases hok
    · cases hr
      exact h.removeFile hexcl ha
  | addFile dir f n time =>
    have hbusy : (c.filing i).work ≠ .clear := by
      obtain ⟨-, ⟨-, hwork⟩ | ⟨g, -, hwork⟩⟩ := id ha <;> simp [hwork]
    have hok := hs.succeeds hbusy
    rcases r with e | _
    · cases hok
    · cases hr
      exact h.addFile hexcl ha
  | _ => exact hsame rfl rfl rfl fun _ key hkey => hkey

end Call

variable {env : Env} {c c' : State}

lemma Careful.followed {e : Event} (h : Careful env c e) : e.Followed c := by
  cases e with
  | begins i l user req payload => exact h
  | calls i o r =>
    intro hwriting
    obtain ⟨n, hwork⟩ := Work.isWriting_iff.mp hwriting
    exact h.succeeds (by simp [hwork])

/-- Besides, index and disk match wherever no request is in the middle of its task. -/
structure Inv (env : Env) (c : State) : Prop extends Tracked c where
  kept : KeptIn env.cwd c c.filing c.requests.shared

lemma inv_idle {s : Store} (hs : s.locks = .initial)
    (hmatch : ∀ x : Place, Matches (x.size s.index) (x.content env.cwd s.disk)) :
    Inv env (.idle s) where
  toTracked := tracked_idle hs
  kept := ⟨fun _ _ hx => (hx.2 rfl).elim, fun _ => trivial, fun x _ => hmatch x⟩

namespace Inv

lemma kept_start {i : ℕ} {t : Code (Reply × Bytes) × Local × Usage} {a : Bytes × Request × Bytes}
    (h : Inv env c) (hi : c.requests.thread i = none) :
    KeptIn env.cwd (c.begin i t a) c.filing c.requests.shared := by
  have hclear : (c.filing i).work = .clear := by rw [(h.fresh i hi).1]; rfl
  have hkept : Tended c.user c.task c.filing (· ≠ .clear) _ _ := h.kept
  refine hkept.start (i := i) (not_not.mpr hclear) ?_ fun j hj => ?_
  · rw [hclear]
    trivial
  · rw [State.begin_user, State.begin_task, if_neg hj, if_neg hj]
    exact ⟨rfl, rfl⟩

lemma step (h : Inv env c) (hs : CarefulStep env c c') : Inv env c' := by
  obtain ⟨e, hstep, hcareful, hcounts⟩ := hs
  have htracked : Tracked c' := h.toTracked.step hstep hcareful.followed hcounts
  cases hstep with
  | start host user req payload hi hl => exact ⟨htracked, h.kept_start hi⟩
  | call r hi hr =>
    exact ⟨htracked, kept_call h.kept h.excludes (h.named _) (h.call_allowed hi) hcareful
      (Monitor.watch_eq_some.mp hr).1⟩

/-- Index and disk match wherever no request is in the middle of its task. -/
lemma matches_of_clear (h : Inv env c) (x : Place) (hclear : ∀ i, (c.filing i).work = .clear) :
    Matches (x.size c.requests.shared.index) (x.content env.cwd c.requests.shared.disk) :=
  h.kept.rest x fun i hx => hx.2 (hclear i)

end Inv

/-- There is a record of the user's file exactly when the file is on disk, and then of its
length. -/
structure Agrees (cwd : Cwd) (s : Store) (u f : Bytes) : Prop where
  same : s.index.fileExists (indexDir u) f = true ↔
    s.disk.isRegularFile (resolve cwd (filePath u f)) = true
  size : ∀ content, s.disk.content (resolve cwd (filePath u f)) = some content →
    (s.index.getFileSize (indexDir u) f).toNat = content.length

lemma agrees_iff {cwd : Cwd} {s : Store} (x : Place) :
    Agrees cwd s x.user x.file ↔ Matches (x.size s.index) (x.content cwd s.disk) := by
  have hsame : Agrees cwd s x.user x.file ↔
      ((x.size s.index).isSome = true ↔ (x.content cwd s.disk).isSome = true) ∧
        ∀ content, x.content cwd s.disk = some content →
          ((x.size s.index).getD 0).toNat = content.length := by
    constructor
    · rintro ⟨hsame, hsize⟩
      rw [Index.fileExists_eq] at hsame
      exact ⟨hsame, hsize⟩
    · rintro ⟨hsame, hsize⟩
      refine ⟨?_, hsize⟩
      rw [Index.fileExists_eq]
      exact hsame
  rw [hsame, Matches]
  cases x.size s.index <;> cases x.content cwd s.disk <;> simp

/-- In a run without the failures that part them, index and disk agree whenever no request is at
work. -/
theorem agree_of_careful (env : Env) (s : Store) (hs : s.locks = .initial)
    (hagree : ∀ u f, IsPlain u → IsPlain f → Agrees env.cwd s u f) (c : State)
    (h : ReflTransGen (CarefulStep env) (.idle s) c) (hquiet : c.requests.Quiescent) :
    ∀ u f, IsPlain u → IsPlain f → Agrees env.cwd c.requests.shared u f := by
  have hinv : Inv env c := by
    clear hquiet
    induction h with
    | refl => exact inv_idle hs fun x => (agrees_iff x).mp (hagree _ _ x.user_plain x.file_plain)
    | tail _ hstep ih => exact ih.step hstep
  intro u f hu hf
  exact (agrees_iff ⟨u, f, hu, hf⟩).mpr (hinv.matches_of_clear _ (hinv.clear_of_quiescent hquiet))

/-- Requests handled one step at a time, whether careful or not. -/
abbrev Run (env : Env) : State → State → Prop := ReflTransGen (fun c c' => ∃ e, Step env c e c')

section Alone

variable {i : ℕ} {p q : Code (Reply × Bytes)} {l l' : Local} {u u' : Usage} {s s' : Store}

lemma run_of_steps (env : Env) (c : State) (hi : c.requests.thread i = some (p, l, u))
    (h : Steps (watched env) (p, ((l, u), c.requests.shared)) (q, ((l', u'), s'))) :
    ∃ c', Run env c c' ∧ c'.requests = c.requests.set i (q, l', u') s' := by
  generalize hb : (q, ((l', u'), s')) = b at h
  induction h generalizing q l' u' s' with
  | refl =>
    cases hb
    exact ⟨c, .refl, (Threads.set_eq_self hi).symm⟩
  | @tail d _ _ hs ih =>
    obtain ⟨q₁, ⟨l₁, u₁⟩, s₁⟩ := d
    cases hb
    obtain ⟨c₁, hrun, hrequests⟩ := ih rfl
    cases hs with
    | @call o k _ _ r hr =>
      have hi₁ : c₁.requests.thread i = some (.op o k, l₁, u₁) := by
        rw [hrequests, Threads.set_thread_self]
      have hr₁ : watched env o ((l₁, u₁), c₁.requests.shared) r = some ((l', u'), s') := by
        rw [hrequests]
        exact hr
      refine ⟨_, hrun.tail ⟨_, .call r hi₁ hr₁⟩, ?_⟩
      rw [State.advance, hrequests, Threads.set_set]

def takesAway : Call → Bool
  | .fsRemove _ | .fsRename _ _ => true
  | _ => false

/-- What is careful in any state. -/
def harmlessly (env : Env) : Next Call Answer ((Local × Usage) × Store) := fun o m r =>
  if takesAway o = false ∧ o.failed r = false then watched env o m r else none

lemma careful_alone (hs : s.locks = .initial) (host : Endian) (user : Bytes) (req : Request)
    (payload : Bytes) (hnamed : ∀ ch, taskOf req payload = some ch → Named user ch.touches)
    (hl : l.self = 0)
    (h : Steps (harmlessly env) (dispatch host user req payload, ((l, .start), s))
      (q, ((l', u'), s'))) :
    ∃ c, ReflTransGen (CarefulStep env) (.idle s) c ∧
      c.requests = (Threads.idle s).set 0 (q, l', u') s' := by
  have hfew : ∀ (t : Code (Reply × Bytes) × Local × Usage) (s₁ : Store) (i : ℕ), 1 ≤ i →
      ((Threads.idle s).set 0 t s₁).thread i = none := fun t s₁ i hi =>
    Threads.set_thread_ne (by omega) t s₁
  generalize hb : (q, ((l', u'), s')) = b at h
  induction h generalizing q l' u' s' with
  | refl =>
    cases hb
    refine ⟨_, .single ⟨_, .start host user req payload rfl hl, hnamed, ?_⟩, rfl⟩
    have hreach : LockBalance.Reachable env (.idle s) := ⟨s, hs, .refl⟩
    exact not_wraps_of_few (m := 0) (by decide) hreach fun _ _ => rfl
  | @tail d _ _ hlast ih =>
    obtain ⟨q₁, ⟨l₁, u₁⟩, s₁⟩ := d
    cases hb
    obtain ⟨c, hrun, hrequests⟩ := ih rfl
    have hreach : LockBalance.Reachable env c.requests :=
      ⟨s, hs, hrun.lift State.requests fun _ _ ⟨_, hstep, _⟩ => hstep.requests⟩
    cases hlast with
    | @call o k _ _ r hr =>
      obtain ⟨⟨htakes, hok⟩, hnext⟩ := Option.ite_none_right_eq_some.mp hr
      have hi : c.requests.thread 0 = some (.op o k, l₁, u₁) := by
        rw [hrequests, Threads.set_thread_self]
      have hr₁ : watched env o ((l₁, u₁), c.requests.shared) r = some ((l', u'), s') := by
        rw [hrequests]
        exact hnext
      refine ⟨_, hrun.tail ⟨_, .call r hi hr₁, ⟨fun _ => hok, ?_, ?_⟩, ?_⟩, ?_⟩
      · rintro p rfl
        cases htakes
      · rintro p q rfl
        cases htakes
      · refine not_wraps_of_few (m := 1) (by decide) hreach ?_
        rw [hrequests]
        exact hfew _ _
      · rw [State.advance, hrequests, Threads.set_set]

end Alone

/-- An upload of one byte, into a file `x`. -/
def uploadX : Request := ⟨makeRequest .upload 1 1 0, [], bytes "x"⟩

/-- Bob uploads `x`, with the given bytes before his connection ends. -/
def played (nx : Next Call Answer ((Local × Usage) × Store)) (i : ℕ) (input : Bytes) (s : Store) :
    Option (Prog.Running Call Answer Exn (Reply × Bytes) ((Local × Usage) × Store)) :=
  follow (fun o m => oblige .atRoot o (m.1.1, m.2)) nx 40
    (dispatch .little (bytes "bob") uploadX []) ((.fresh i input true, .start), s)

lemma run_played (c : State) {i : ℕ} {input : Bytes} (hi : c.requests.thread i = none)
    {q : Code (Reply × Bytes)} {l : Local} {u : Usage} {s : Store}
    (h : played (watched .atRoot) i input c.requests.shared = some (q, ((l, u), s))) :
    ∃ c', Run .atRoot c c' ∧ c'.requests = c.requests.set i (q, l, u) s := by
  have hbegin : Step .atRoot c _ (c.begin i (dispatch .little (bytes "bob") uploadX [],
      .fresh i input true, .start) (bytes "bob", uploadX, [])) :=
    .start .little (bytes "bob") uploadX [] hi rfl
  obtain ⟨c', hrun, hrequests⟩ := run_of_steps .atRoot (c.begin i (dispatch .little (bytes "bob")
    uploadX [], .fresh i input true, .start) (bytes "bob", uploadX, []))
      (Threads.set_thread_self ..)
    (steps_of_follow h)
  refine ⟨c', .head ⟨_, hbegin⟩ hrun, ?_⟩
  rw [hrequests, State.begin, Threads.set_set]

lemma agrees_bare (cwd : Cwd) (u f : Bytes) : Agrees cwd LockBalance.bare u f := by
  have hnone : LockBalance.bare.disk.content (resolve cwd (filePath u f)) = none :=
    Disk.content_ofDir ..
  refine ⟨?_, fun content h => ?_⟩
  · rw [Disk.isRegularFile, hnone]
    refine iff_of_false ?_ (by simp)
    simp [LockBalance.bare, Store.fresh, Index.fileExists, Index.entry, Index.empty]
  · rw [hnone] at h
    cases h

theorem agree_of_careful_bob : ∃ c, ReflTransGen (CarefulStep .atRoot) (.idle LockBalance.bare) c ∧
    c.requests.shared.index.fileExists (indexDir (bytes "bob")) (bytes "x") = true ∧
    ∀ u f, IsPlain u → IsPlain f → Agrees Env.atRoot.cwd c.requests.shared u f := by
  have hplayed : (played (harmlessly .atRoot) 0 [0x41] LockBalance.bare).any (fun c =>
      c.1.isOver && c.2.2.index.fileExists (indexDir (bytes "bob")) (bytes "x")) = true := by
    decide +kernel
  obtain ⟨⟨q, ⟨l, u⟩, s⟩, hfollow, hend⟩ := (Option.any_eq_true _ _).mp hplayed
  obtain ⟨hover, hexists⟩ := Bool.and_eq_true_iff.mp hend
  obtain ⟨r, rfl⟩ := Prog.exists_of_isOver hover
  obtain ⟨c, hrun, hrequests⟩ := careful_alone (s := LockBalance.bare) rfl .little (bytes "bob")
    uploadX [] (fun ch hch => Or.inr ⟨plain_bob, by cases hch; decide⟩) rfl
      (steps_of_follow hfollow)
  refine ⟨c, hrun, ?_, agree_of_careful .atRoot _ rfl (fun u f _ _ => agrees_bare _ u f) c hrun ?_⟩
  · rw [hrequests]
    exact hexists
  · rw [hrequests]
    exact (Threads.quiescent_idle _).set 0 r (l, u) s

/-- Bob uploads `x` a second time, and loses his connection: the file is gone, and its record is
not. -/
theorem not_agree : ¬ ∀ (env : Env) (s : Store), s.locks = .initial →
    (∀ u f, Agrees env.cwd s u f) → ∀ c, Run env (.idle s) c → c.requests.Quiescent →
    ∀ u f, IsPlain u → IsPlain f → Agrees env.cwd c.requests.shared u f := by
  intro hall
  have hplayed : (played (watched .atRoot) 0 [0x41] LockBalance.bare).any (fun c => c.1.isOver &&
      (played (watched .atRoot) 1 [] c.2.2).any (fun d => d.1.isOver &&
        (d.2.2.index.fileExists (indexDir (bytes "bob")) (bytes "x") &&
          !d.2.2.disk.isRegularFile
            (resolve Env.atRoot.cwd (filePath (bytes "bob") (bytes "x")))))) = true := by
    decide +kernel
  obtain ⟨⟨q, ⟨l, u⟩, s⟩, hfirst, hend⟩ := (Option.any_eq_true _ _).mp hplayed
  obtain ⟨hover, hrest⟩ := Bool.and_eq_true_iff.mp hend
  obtain ⟨⟨q', ⟨l', u'⟩, s'⟩, hsecond, hend'⟩ := (Option.any_eq_true _ _).mp hrest
  obtain ⟨hover', hgone⟩ := Bool.and_eq_true_iff.mp hend'
  obtain ⟨hexists, hnofile⟩ := Bool.and_eq_true_iff.mp hgone
  obtain ⟨r, rfl⟩ := Prog.exists_of_isOver hover
  obtain ⟨r', rfl⟩ := Prog.exists_of_isOver hover'
  obtain ⟨c, hrun, hrequests⟩ := run_played (.idle LockBalance.bare) rfl hfirst
  have hnone : c.requests.thread 1 = none := by
    rw [hrequests, Threads.set_thread_ne (by decide)]
    rfl
  have hsecond : played (watched .atRoot) 1 [] c.requests.shared =
      some (.ofExcept r', (l', u'), s') := by
    rw [hrequests]
    exact hsecond
  obtain ⟨c', hrun', hrequests'⟩ := run_played c hnone hsecond
  have hquiet : c'.requests.Quiescent := by
    rw [hrequests', hrequests]
    exact ((Threads.quiescent_idle _).set 0 r (l, u) s).set 1 r' (l', u') s'
  have hagrees := hall .atRoot _ rfl (agrees_bare _) c' (hrun.trans hrun') hquiet (bytes "bob")
    (bytes "x") plain_bob (by decide)
  rw [hrequests'] at hagrees
  have hfile := hagrees.same.mp hexists
  rw [Threads.set_shared] at hfile
  simp [hfile] at hnofile

end Mtfss.Agreement
