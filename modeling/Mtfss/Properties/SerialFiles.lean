import Mtfss.Properties.FileOrder

/-! In a run without the failures that part index and disk, requests take effect in one order. -/

namespace Mtfss.SerialFiles

open Effects Paths Server Relation LockExclusion FileRequests Agreement

section Call

open Rules

variable {env : Env} {c : State} {i : ℕ} {o : Call} {r : Answer o} {l l' : Local} {s' : Store}
variable {t' : Course} {k : Answer o → Code (Reply × Bytes)} {u u' : Usage} {x : Place}

lemma goesOn_eq (h : Course.next (c.task i) o (c.course i) r = some t') : c.goesOn i o r = t' := by
  rw [State.goesOn, h]
  rfl

lemma effect_of_made (h : (c.goesOn i o r).made = (c.course i).made) : c.effect i o r = none := by
  rw [State.effect, h]
  exact if_neg fun hmade => by simp [hmade.1] at hmade

lemma effect_unmarked (h : Course.next (c.task i) o (c.course i) r = some t')
    (ho : o.isMark = false) : c.effect i o r = none := by
  refine effect_of_made ?_
  rw [goesOn_eq h]
  exact (Course.next_unmarked ho h).1

lemma effect_some {ch : Change} (h : Course.next (c.task i) o (c.course i) r = some t')
    (hbefore : (c.course i).made = false) (hmade : t'.made = true) (htask : c.task i = some ch) :
    c.effect i o r = some (deedOf (c.user i) (c.before i).input ch) := by
  rw [State.effect, goesOn_eq h, if_pos ⟨hmade, hbefore⟩, State.deed, htask]
  rfl

lemma effect_eq_some {e : Deed (Bytes × Bytes) Bytes} : c.effect i o r = some e ↔
    (c.goesOn i o r).made = true ∧ (c.course i).made = false ∧ c.deed i = some e := by
  rw [State.effect, Option.ite_none_right_eq_some, and_assoc]

lemma content_modify_none {d : Disk} {m n : Loc} (f : Bytes → Bytes) (h : d.content m = none) :
    (d.modify n f).content m = none := by
  by_cases hm : m = n
  · subst hm
    rw [Disk.content] at h ⊢
    rw [Disk.modify]
    dsimp only
    rw [if_pos rfl]
    rcases hnode : d.node m with _ | _ | bs
    · rfl
    · rfl
    · rw [hnode] at h
      cases h
  · have hsame : (d.modify n f).node m = d.node m := if_neg hm
    rw [Disk.content, hsame]
    exact h

/-- Where a file is not, there is none after a call that neither opens nor renames one. -/
lemma content_none {s : Store} (hr : next env o (l, s) r = some (l', s'))
    (hopen : ∀ p, o ≠ .openOut p)
    (hrename : ∀ p q, o ≠ .fsRename p q) (h : x.content env.cwd s.disk = none) :
    x.content env.cwd s'.disk = none := by
  by_cases hd : o.writesDisk = false
  · rw [next_disk hr hd]
    exact h
  cases o with
  | openOut p => exact (hopen p rfl).elim
  | fsRename p q => exact (hrename p q rfl).elim
  | createDirectories p =>
    rw [next, orThrow_eq_some] at hr
    obtain ⟨-, rfl, hmap⟩ | ⟨-, rfl, hpair⟩ := hr
    · obtain ⟨d, hd, hpair⟩ := Option.map_eq_some_iff.mp hmap
      cases hpair
      exact ((Disk.createDirectories_adds hd).content _).trans h
    · cases hpair
      exact h
  | write p data =>
    cases r with
    | none =>
      cases hr
      exact content_modify_none _ h
    | some n =>
      obtain ⟨-, hpair⟩ := Option.ite_none_right_eq_some.mp hr
      cases hpair
      exact content_modify_none _ h
  | closeOut p =>
    cases r with
    | none =>
      cases hr
      exact h
    | some n =>
      obtain ⟨-, hpair⟩ := Option.ite_none_right_eq_some.mp hr
      cases hpair
      exact content_modify_none _ h
  | fsRemove p =>
    rw [next, orThrow_eq_some] at hr
    obtain ⟨b, rfl, hb⟩ | ⟨-, -, hpair⟩ := hr
    · obtain ⟨⟨b', d⟩, hd, hanswer⟩ := Option.bind_eq_some_iff.mp hb
      obtain ⟨rfl, hpair⟩ := answer_eq_some.mp hanswer
      cases hpair
      cases b with
      | false =>
        rw [(Disk.remove_false hd).1]
        exact h
      | true =>
        by_cases hloc : resolve env.cwd x.key = resolve env.cwd p
        · rw [Place.content, hloc, Disk.content, (Disk.remove_sets hd).at]
        · exact ((Disk.remove_sets hd).content hloc).trans h
    · cases hpair
      exact h
  | _ => exact (hd rfl).elim

lemma held_unlocking {key : Bytes} {t : Filing} (hlock : ∀ key, o ≠ .lock key)
    (hboth : ∀ key key', o ≠ .lockBoth key key') (h : key ∈ (Filing.after o t r).held) :
    key ∈ t.held := by
  cases o with
  | lock key => exact (hlock key rfl).elim
  | lockBoth key key' => exact (hboth key key' rfl).elim
  | unlock key => exact List.mem_of_mem_erase h
  | openOut p => cases r <;> exact h
  | _ => exact h

/-- A path that a request has found free since it has locked it is free. -/
lemma free_call {s : Store} {t : Filing} {p : Course} (hfree : ∀ x : Place, p.absent = some x.key →
      x.key ∈ t.held → x.content env.cwd s.disk = none)
    (hr : next env o (l, s) r = some (l', s')) {ts : Option Change}
    (hc : Course.next ts o p r = some t')
    (habsent : t'.absent = some x.key) (hheld : x.key ∈ (Filing.after o t r).held) :
    x.content env.cwd s'.disk = none := by
  by_cases hexists : ∃ q, o = .fsExists q
  · obtain ⟨q, rfl⟩ := hexists
    have hsame : s'.disk = s.disk := next_disk hr rfl
    rw [hsame]
    rcases r with e | _ | _
    · cases hc
      exact hfree x habsent hheld
    · cases hc
      obtain rfl : q = x.key := Option.some.inj habsent
      obtain hanswer | ⟨e, he⟩ := fsExists_answer hr
      · have hnone : s.disk.existsAt (resolve env.cwd x.key) = false :=
          (Except.ok.inj hanswer).symm
        rw [Disk.existsAt, Option.isSome_eq_false_iff, Option.isNone_iff_eq_none] at hnone
        rw [Place.content, Disk.content, hnone]
      · cases he
    · cases hc
      exact hfree x habsent hheld
  · obtain ⟨hbefore, hopen, hrename, hlock, hboth⟩ :=
      Course.next_absent hc habsent fun q hq => hexists ⟨q, hq⟩
    exact content_none hr hopen hrename (hfree x hbefore (held_unlocking hlock hboth hheld))

/-- An upload that writes has not removed what it has written. -/
lemma writing_before {t : Filing} (hopen : ∀ p, o ≠ .openOut p)
    (h : (Filing.after o t r).work.isWriting = true) :
    t.work.isWriting = true ∧ (∀ p, o ≠ .fsRemove p) ∧ ∀ p q, o ≠ .fsRename p q := by
  obtain ⟨held, work⟩ := t
  cases o with
  | openOut p => exact (hopen p rfl).elim
  | fsRemove p => rcases work <;> rcases r with e | _ | _ <;> cases h
  | fsRename p q => rcases r with e | _ <;> cases h
  | addFile dir f n time => cases h
  | removeFile dir f => rcases work <;> rcases r with e | _ <;> cases h
  | getFileSize dir f => rcases work <;> simp_all [Filing.after, Work.measured, Work.isWriting]
  | write p bs => rcases work <;> simp_all [Filing.after, Work.wrote, Work.isWriting]
  | _ => exact ⟨h, by simp, by simp⟩

/-- What an upload has in its file is what it has written. -/
lemma written_call {s : Store} {t : Filing} {p : Course} {user : Bytes} {task ts : Option Change}
    (hnamed : ∀ ch, task = some ch → Named user ch.touches) (ha : Filing.Allows user task o t)
    (hok : t.work.isWriting = true → o.failed r = false)
    (hwritten : t.work.isWriting = true → x.content env.cwd s.disk = some p.data)
    (hx : x ∈ own user task) (hr : next env o (l, s) r = some (l', s'))
    (hc : Course.next ts o p r = some t') (hwriting : (Filing.after o t r).work.isWriting = true) :
    x.content env.cwd s'.disk = some t'.data := by
  by_cases hopen : ∃ q, o = .openOut q
  · obtain ⟨q, rfl⟩ := hopen
    obtain ⟨hclear, f, n, htask, howns⟩ := ha
    cases r with
    | false =>
      rw [Filing.after, if_neg (by simp), hclear] at hwriting
      cases hwriting
    | true =>
      obtain ⟨y, -, -, rfl, -, hown⟩ := exists_single hnamed htask rfl howns
      obtain rfl := (hown x).mp hx
      cases hc
      obtain ⟨d, hd, hpair⟩ := Option.map_eq_some_iff.mp hr
      cases hpair
      rw [Place.content, Disk.content, (Disk.openOut_sets hd).at]
  have hopen : ∀ q, o ≠ .openOut q := fun q hq => hopen ⟨q, hq⟩
  obtain ⟨hbefore, hremove, hrename⟩ := writing_before hopen hwriting
  have hdata := hwritten hbefore
  by_cases hwrite : ∃ q bs, o = .write q bs
  · obtain ⟨q, bs, rfl⟩ := hwrite
    obtain ⟨-, f, n, htask, howns⟩ := ha
    obtain ⟨y, -, -, rfl, -, hown⟩ := exists_single hnamed htask rfl howns
    obtain rfl := (hown x).mp hx
    cases r with
    | some m => cases hok hbefore
    | none =>
      cases hr
      cases (Course.next_write _ bs).symm.trans hc
      have hsets := Disk.modify_sets (Disk.content_eq_some.mp hdata) (· ++ bs)
      rw [Place.content, Disk.content, hsets.at]
  rw [Course.next_data hopen (fun q bs hq => hwrite ⟨q, bs, hq⟩) hc, ← hdata]
  by_cases hd : o.writesDisk = false
  · rw [next_disk hr hd]
  cases o with
  | openOut q => exact (hopen q rfl).elim
  | write q bs => exact (hwrite ⟨q, bs, rfl⟩).elim
  | fsRemove q => exact (hremove q rfl).elim
  | fsRename q q' => exact (hrename q q' rfl).elim
  | closeOut q =>
    cases r with
    | some m => cases hok hbefore
    | none =>
      cases hr
      rfl
  | createDirectories q =>
    rw [next, orThrow_eq_some] at hr
    obtain ⟨-, rfl, hmap⟩ | ⟨-, rfl, hpair⟩ := hr
    · obtain ⟨d, hd, hpair⟩ := Option.map_eq_some_iff.mp hmap
      cases hpair
      exact (Disk.createDirectories_adds hd).content _
    · cases hpair
      rfl
  | _ => exact (hd rfl).elim

abbrev ViewedIn (cwd : Cwd) (c : State) (filing : ℕ → Filing) (s : Store) (files : Files) : Prop :=
  Viewed cwd c.user c.task filing s.index s.disk files

lemma viewed_same (h : ViewedIn env.cwd c c.filing c.requests.shared c.files)
    (hexcl : Excludes c.filing) {t : Filing} (hwork : t.work = (c.filing i).work)
    (hheld : t.work ≠ .clear → ∀ key ∈ (c.filing i).held, key ∈ t.held)
    (hindex : s'.index = c.requests.shared.index)
    (hdisk : ∀ m, s'.disk.content m = c.requests.shared.disk.content m) :
    ViewedIn env.cwd c (Function.update c.filing i t) s' c.files := by
  refine h.aside hexcl hwork hheld (fun x => ?_) fun x => hdisk _
  rw [hindex]

/-- What a call has done for good is as it may be, and the files are as it makes them. -/
abbrev Done (cwd : Cwd) (c : State) (filing : ℕ → Filing) (s : Store)
    (effect : Option (Deed (Bytes × Bytes) Bytes)) : Prop :=
  (∀ e, effect = some e → e.Legal c.files) ∧
    ViewedIn cwd c filing s (effect.elim c.files (fun e => e.apply c.files))

lemma done_none {filing : ℕ → Filing} {e : Option (Deed (Bytes × Bytes) Bytes)} (he : e = none)
    (h : ViewedIn env.cwd c filing s' c.files) : Done env.cwd c filing s' e := by
  subst he
  exact ⟨nofun, h⟩

/-- The records, between which a file has been renamed. -/
lemma done_record {filing : ℕ → Filing} (h : ViewedIn env.cwd c filing s' c.files)
    (hmade : (c.goesOn i o r).made = (c.course i).made) :
    Done env.cwd c filing s' (c.effect i o r) :=
  done_none (effect_of_made hmade) h

lemma done_call (h : ViewedIn env.cwd c c.filing c.requests.shared c.files)
    (hkept : KeptIn env.cwd c.toState c.filing c.requests.shared) (hexcl : Excludes c.filing)
    (hnamed : ∀ ch, c.task i = some ch → Named (c.user i) ch.touches)
    (ha : Filing.Allows (c.user i) (c.task i) o (c.filing i)) (hs : Smooth env c.toState i o r)
    (hfile : ∀ j p, Event.calls i o r = .calls j (.fsRemove p) (.ok true) →
      c.requests.shared.disk.isRegularFile (resolve env.cwd p) = true)
    (hfree : ∀ x : Place, (c.course i).absent = some x.key → x.key ∈ (c.filing i).held →
      x.content env.cwd c.requests.shared.disk = none)
    (hwritten : ∀ x : Place, (c.filing i).work.isWriting = true → x ∈ own (c.user i) (c.task i) →
      x.content env.cwd c.requests.shared.disk = some (c.course i).data)
    (hallowed : Course.Allows (c.before i) (c.task i) o (c.course i))
    (hc : Course.next (c.task i) o (c.course i) r = some t')
    (hr : next env o (l, c.requests.shared) r = some (l', s')) :
    Done env.cwd c (Function.update c.filing i (Filing.after o (c.filing i) r)) s'
      (c.effect i o r) := by
  have hsame : o.isMark = false → o.writesDisk = false → o.writesIndex = false →
      (Filing.after o (c.filing i) r).work = (c.filing i).work →
      ((Filing.after o (c.filing i) r).work ≠ .clear →
        ∀ key ∈ (c.filing i).held, key ∈ (Filing.after o (c.filing i) r).held) →
      Done env.cwd c (Function.update c.filing i (Filing.after o (c.filing i) r)) s'
        (c.effect i o r) := by
    intro hmark hd hi hwork hheld
    refine done_none (effect_unmarked hc hmark)
      (viewed_same h hexcl hwork hheld (next_index hr hi) ?_)
    intro m
    rw [next_disk hr hd]
  cases o with
  | lock key => exact hsame rfl rfl rfl rfl fun _ key hkey => List.mem_cons_of_mem _ hkey
  | lockBoth key₁ key₂ =>
    exact hsame rfl rfl rfl rfl fun _ key hkey =>
      List.mem_cons_of_mem _ (List.mem_cons_of_mem _ hkey)
  | unlock key => exact hsame rfl rfl rfl rfl fun hbusy => (hbusy ha).elim
  | createDirectories p =>
    refine done_none (effect_unmarked hc rfl) ?_
    rw [next, orThrow_eq_some] at hr
    obtain ⟨-, rfl, hmap⟩ | ⟨-, rfl, hpair⟩ := hr
    · obtain ⟨d, hd, hpair⟩ := Option.map_eq_some_iff.mp hmap
      cases hpair
      exact viewed_same h hexcl rfl (fun _ key hkey => hkey) rfl
        fun m => (Disk.createDirectories_adds hd).content m
    · cases hpair
      exact viewed_same h hexcl rfl (fun _ key hkey => hkey) rfl fun _ => rfl
  | openOut p =>
    refine done_none (effect_unmarked hc rfl) ?_
    cases r with
    | true => exact h.openOut hkept hexcl hnamed ha hr
    | false =>
      simp only [next, Bool.false_eq_true, if_false, Option.ite_none_right_eq_some,
        Option.some.injEq, Prod.mk.injEq] at hr
      obtain ⟨-, -, rfl⟩ := hr
      exact viewed_same h hexcl rfl (fun _ key hkey => hkey) rfl fun _ => rfl
  | write p data =>
    refine done_none (effect_unmarked hc rfl) ?_
    obtain ⟨n, hwork⟩ := Work.isWriting_iff.mp ha.1
    have hok := hs.succeeds (by simp [hwork])
    cases r with
    | some k => cases hok
    | none =>
      rw [Filing.after, hwork]
      exact h.write hexcl hnamed hwork ha hr
  | closeOut p =>
    refine done_none (effect_unmarked hc rfl) ?_
    obtain ⟨n, hwork⟩ := Work.isWriting_iff.mp ha.1
    have hok := hs.succeeds (by simp [hwork])
    cases r with
    | some k => cases hok
    | none =>
      cases hr
      exact viewed_same h hexcl rfl (fun _ key hkey => hkey) rfl fun _ => rfl
  | fsRemove p =>
    refine done_none (effect_unmarked hc rfl) ?_
    obtain ⟨hwriting, -⟩ | ⟨hclear, -⟩ := id ha
    · obtain ⟨n, hwork⟩ := Work.isWriting_iff.mp hwriting
      have hok := hs.succeeds (by simp [hwork])
      rw [Filing.after, hwork]
      exact h.removeWritten hexcl hnamed hwork ha hok (hs.new p rfl hwriting) hr
    rw [Filing.after, hclear]
    rcases r with e | _ | _
    · rw [next, orThrow_eq_some] at hr
      obtain ⟨_, ⟨⟩, -⟩ | ⟨-, -, hpair⟩ := hr
      cases hpair
      exact viewed_same h hexcl hclear.symm (fun hbusy => (hbusy rfl).elim) rfl fun _ => rfl
    · obtain ⟨⟨b', d⟩, hd, hanswer⟩ := Option.bind_eq_some_iff.mp hr
      obtain ⟨rfl, hpair⟩ := answer_eq_some.mp hanswer
      cases hpair
      obtain ⟨rfl, -⟩ := Disk.remove_false hd
      exact viewed_same h hexcl hclear.symm (fun hbusy => (hbusy rfl).elim) rfl fun _ => rfl
    · exact h.remove hexcl hnamed hclear ha (hfile i p rfl) hr
  | fsRename p q =>
    have hmade : (c.goesOn i (.fsRename p q) r).made = (c.course i).made := by
      rw [goesOn_eq hc]
      cases hc
      rfl
    refine done_record ?_ hmade
    rcases r with e | _
    · rw [next, orThrow_eq_some] at hr
      obtain ⟨_, ⟨⟩, -⟩ | ⟨-, -, hpair⟩ := hr
      cases hpair
      exact viewed_same h hexcl ha.1.symm (fun hbusy => (hbusy rfl).elim) rfl fun _ => rfl
    · have habsent : (c.course i).absent = some q := by
        obtain ⟨-, -, f, g, htask, -⟩ := id ha
        exact hallowed _ htask
      refine h.rename hexcl hnamed ha (hs.file p q rfl) (fun y hy hheld => ?_) hr
      exact hfree y (hy ▸ habsent) hheld
  | getFileSize dir f =>
    refine done_none (effect_unmarked hc rfl) ?_
    obtain ⟨hn, hpair⟩ := answer_eq_some.mp hr
    cases hpair
    by_cases hmoved : (c.filing i).work = .moved
    · rw [Filing.after, hmoved]
      have hmid := h.midway i
      rw [hmoved] at hmid
      exact h.inside hexcl (by simp [hmoved]) rfl (fun _ _ => rfl) hmid (by rintro ⟨⟩)
    · have hwork : (Filing.after (.getFileSize dir f) (c.filing i) r).work = (c.filing i).work := by
        rw [Filing.after]
        cases hw : (c.filing i).work <;> first | rfl | exact (hmoved hw).elim
      exact viewed_same h hexcl hwork (fun _ key hkey => hkey) rfl fun _ => rfl
  | removeFile dir f =>
    have hbusy : (c.filing i).work ≠ .clear := by
      obtain ⟨-, ⟨-, hwork⟩ | ⟨g, n, -, hwork⟩⟩ := id ha <;> simp [hwork]
    have hok := hs.succeeds hbusy
    rcases r with e | _
    · cases hok
    cases hr
    obtain ⟨hdir, ⟨htask, hwork⟩ | ⟨g, n, htask, hwork⟩⟩ := ha
    · have hbefore : (c.course i).made = false := hallowed _ htask
      have hmade : t'.made = true := by
        cases hc
        simp [htask, Except.isOk, Except.toBool]
      rw [effect_some hc hbefore hmade htask]
      obtain ⟨hlegal, hview⟩ := h.drop hkept hexcl (c.before i).input hdir htask hwork
      refine ⟨?_, ?_⟩
      · rintro _ ⟨⟩
        exact hlegal
      · rw [Filing.after, hwork]
        exact hview
    · have hmade : (c.goesOn i (.removeFile dir f) (.ok ())).made = (c.course i).made := by
        rw [goesOn_eq hc]
        cases hc
        simp [htask]
      refine done_record ?_ hmade
      rw [Filing.after, hwork]
      have hmid := h.midway i
      rw [hwork] at hmid
      obtain ⟨x, y, hrenames, hthere, hy, hnone⟩ := hmid
      cases htask.symm.trans hrenames.task
      refine h.inside hexcl hbusy rfl (fun z hz => ?_) ⟨x, y, hrenames, hthere, hy, hnone⟩
        (by rintro ⟨⟩)
      rw [hdir, ← hrenames.source, Place.size_removeFile,
        if_neg fun he => hz (hrenames.mem_iff.mpr (Or.inl he))]
  | addFile dir f n time =>
    have hbusy : (c.filing i).work ≠ .clear := by
      obtain ⟨-, ⟨-, hwork⟩ | ⟨g, -, hwork⟩⟩ := id ha <;> simp [hwork]
    have hok := hs.succeeds hbusy
    rcases r with e | _
    · cases hok
    cases hr
    have hmade : t'.made = true := by
      cases hc
      simp [Except.isOk, Except.toBool]
    obtain ⟨hdir, ⟨htask, hwork⟩ | ⟨g, htask, hwork⟩⟩ := ha
    · obtain ⟨hbefore, hfits⟩ := hallowed _ htask
      rw [effect_some hc hbefore hmade htask]
      refine ⟨?_, ?_⟩
      · rintro _ ⟨⟩
        trivial
      refine h.put hexcl hdir htask hwork fun x hx => ?_
      rw [hwritten x (by rw [hwork]; rfl) hx, (hfits f n rfl).1]
    · obtain ⟨hbefore, -⟩ := hallowed _ htask
      rw [effect_some hc hbefore hmade htask]
      obtain ⟨hlegal, hview⟩ := h.move hkept hexcl (c.before i).input hdir htask hwork
      refine ⟨?_, hview⟩
      rintro _ ⟨⟩
      exact hlegal
  | _ => exact hsame rfl rfl rfl rfl fun _ key hkey => hkey

end Call

/-- Besides, each request goes on as its course says, which tells what is in its file and which path
is free, and those that have done what they were asked are in the order. -/
structure Inv (env : Env) (start : Files) (c : State) :
    Prop extends Agreement.Inv env c.toState where
  goes : ∀ i p l u, c.requests.thread i = some (p, l, u) → (c.course i).conn = l.conn ∧
    Course.Goes (c.before i) (c.task i) p (Course.Answers (c.user i) (c.task i)) (c.course i)
  unbegun : ∀ i, c.requests.thread i = none → c.course i = .start (c.before i)
  free : ∀ i (x : Place), (c.course i).absent = some x.key → x.key ∈ (c.filing i).held →
    x.content env.cwd c.requests.shared.disk = none
  written : ∀ i (x : Place), (c.filing i).work.isWriting = true → x ∈ own (c.user i) (c.task i) →
    x.content env.cwd c.requests.shared.disk = some (c.course i).data
  viewed : ViewedIn env.cwd c c.filing c.requests.shared c.files
  plays : Deed.Plays start (c.order.map Prod.snd) c.files
  once : (c.order.map Prod.fst).Nodup
  noted : ∀ i e, (i, e) ∈ c.order ↔ (c.course i).made = true ∧ c.deed i = some e
  arrived : ∀ i f n, (c.course i).made = true → c.task i = some (.put f n) →
    n.toNat ≤ (c.before i).input.length

lemma inv_idle {env : Env} {s : Store} (hs : s.locks = .initial)
    (hmatch : ∀ x : Place, Matches (x.size s.index) (x.content env.cwd s.disk)) :
    Inv env (contents env.cwd s.disk) (.idle env.cwd s) where
  toInv := Agreement.inv_idle hs hmatch
  goes := nofun
  unbegun _ _ := rfl
  free := nofun
  written := nofun
  viewed := ⟨fun _ _ hx => (hx.2 rfl).elim, fun _ => trivial, fun _ _ => rfl⟩
  plays := .nil
  once := List.nodup_nil
  noted i e := by
    refine iff_of_false List.not_mem_nil ?_
    rintro ⟨⟨⟩, -⟩
  arrived := nofun

namespace Inv

variable {env : Env} {start : Files} {c c' : State} {i : ℕ} {l : Local}

lemma start_step (h : Inv env start c) {host : Endian} {user : Bytes} {req : Request}
    {payload : Bytes} (hi : c.requests.thread i = none)
    (hinv : Agreement.Inv env
      (c.begin i (dispatch host user req payload, l, .start) (user, req, payload))) :
    Inv env start (c.after
      (c.begin i (dispatch host user req payload, l, .start) (user, req, payload))
      (.begins i l user req payload)) := by
  have hclear : (c.filing i).work = .clear := by rw [(h.fresh i hi).1]; rfl
  have hunmade : (c.course i).made = false := by rw [h.unbegun i hi]; rfl
  have hviewed : Tended c.user c.task c.filing (· ≠ .clear) _ _ := h.viewed
  refine ⟨hinv, fun j p l' u hj => ?_, fun j hj => ?_, fun j x hx hheld =>
    ?_, fun j x hw hx => ?_, ?_,
    h.plays, h.once, fun j e => ?_, fun j f n hm ht => ?_⟩
  · dsimp only [State.after]
    rw [State.begin_user, State.begin_task]
    by_cases hji : j = i
    · subst hji
      cases (Threads.set_thread_self ..).symm.trans hj
      rw [if_pos rfl, if_pos rfl, Function.update_self, Function.update_self]
      exact ⟨rfl, Course.goes_dispatch host user req payload l.conn⟩
    · rw [if_neg hji, if_neg hji, Function.update_of_ne hji, Function.update_of_ne hji]
      exact h.goes j p l' u ((Threads.set_thread_ne hji ..).symm.trans hj)
  · have hji : j ≠ i := by
      rintro rfl
      cases (Threads.set_thread_self ..).symm.trans hj
    dsimp only [State.after]
    rw [Function.update_of_ne hji, Function.update_of_ne hji]
    exact h.unbegun j ((Threads.set_thread_ne hji ..).symm.trans hj)
  · by_cases hji : j = i
    · subst hji
      dsimp only [State.after] at hx
      rw [Function.update_self] at hx
      cases hx
    · dsimp only [State.after] at hx
      rw [Function.update_of_ne hji] at hx
      exact h.free j x hx hheld
  · have hji : j ≠ i := by
      rintro rfl
      have hwriting : (c.filing j).work.isWriting = true := hw
      rw [hclear] at hwriting
      cases hwriting
    dsimp only [State.after] at hx ⊢
    rw [State.begin_user, State.begin_task, if_neg hji, if_neg hji] at hx
    rw [Function.update_of_ne hji]
    exact h.written j x hw hx
  · refine hviewed.start (i := i) (not_not.mpr hclear) ?_ fun j hj => ?_
    · rw [hclear]
      trivial
    · dsimp only [State.after]
      rw [State.begin_user, State.begin_task, if_neg hj, if_neg hj]
      exact ⟨rfl, rfl⟩
  · by_cases hji : j = i
    · subst hji
      have hnot : (j, e) ∉ c.order := by simp [h.noted, hunmade]
      refine iff_of_false hnot ?_
      dsimp only [State.after]
      rw [Function.update_self]
      rintro ⟨⟨⟩, -⟩
    · rw [State.deed]
      dsimp only [State.after]
      rw [State.begin_user, State.begin_task, if_neg hji, if_neg hji, Function.update_of_ne hji,
        Function.update_of_ne hji]
      exact h.noted j e
  · by_cases hji : j = i
    · subst hji
      dsimp only [State.after] at hm
      rw [Function.update_self] at hm
      cases hm
    · dsimp only [State.after] at hm ht ⊢
      rw [Function.update_of_ne hji] at hm ⊢
      rw [State.begin_task, if_neg hji] at ht
      exact h.arrived j f n hm ht

lemma call_step {o : Call} {k : Answer o → Code (Reply × Bytes)} {l' : Local}
    {u u' : Usage} {s' : Store}
    {r : Answer o} (h : Inv env start c) (hi : c.requests.thread i = some (.op o k, l, u))
    (hr : watched env o ((l, u), c.requests.shared) r = some ((l', u'), s'))
    (hcareful : Careful env c (.calls i o r))
    (hinv : Agreement.Inv env (c.advance i o r (k r, l', u') s')) :
    Inv env start (c.after (c.advance i o r (k r, l', u') s') (.calls i o r)) := by
  have hnext : next env o (l, c.requests.shared) r = some (l', s') :=
    (Monitor.watch_eq_some.mp hr).1
  have hfiles := h.call_allowed hi
  have hsmooth : Smooth env c.toState i o r := hcareful.1
  obtain ⟨hconn, hallowed, hrest⟩ := h.goes i _ l u hi
  obtain ⟨t', hc, hconn'⟩ := Course.exists_next (c.task i) hnext hconn (by
    rintro p bs rfl
    obtain ⟨n, hwork⟩ := Work.isWriting_iff.mp hfiles.1
    exact hsmooth.succeeds (by simp [hwork]))
  have hgo : c.goesOn i o r = t' := goesOn_eq hc
  have hviewed : Tended c.user c.task c.filing (· ≠ .clear) _ _ := h.viewed
  have hdone := done_call h.viewed h.kept h.excludes (h.named i) hfiles hsmooth
    hcareful.2 (h.free i) (h.written i) hallowed hc hnext
  have hother : ∀ {j}, j ≠ i →
      (c.after (c.advance i o r (k r, l', u') s') (.calls i o r)).filing j =
      c.filing j := fun hj => Function.update_of_ne hj _ _
  have hself : (c.after (c.advance i o r (k r, l', u') s') (.calls i o r)).filing i =
      Filing.after o (c.filing i) r := Function.update_self _ _ _
  have hcourse : ∀ {j}, j ≠ i →
      (c.after (c.advance i o r (k r, l', u') s') (.calls i o r)).course j =
      c.course j := fun hj => Function.update_of_ne hj _ _
  have hmine : (c.after (c.advance i o r (k r, l', u') s') (.calls i o r)).course i = t' :=
    (Function.update_self _ _ _).trans hgo
  refine ⟨hinv, fun j p l₁ u₁ hj => ?_, fun j hj => ?_, fun j x hx hheld => ?_, fun j x hw hx => ?_,
    hdone.2, ?_, ?_, fun j e => ?_, fun j f n hm ht => ?_⟩
  · by_cases hji : j = i
    · subst hji
      cases (Threads.set_thread_self ..).symm.trans hj
      rw [hmine]
      exact ⟨hconn', hrest r t' hc⟩
    · rw [hcourse hji]
      exact h.goes j p l₁ u₁ ((Threads.set_thread_ne hji ..).symm.trans hj)
  · have hji : j ≠ i := by
      rintro rfl
      cases (Threads.set_thread_self ..).symm.trans hj
    rw [hcourse hji]
    exact h.unbegun j ((Threads.set_thread_ne hji ..).symm.trans hj)
  · by_cases hji : j = i
    · subst hji
      rw [hmine] at hx
      rw [hself] at hheld
      exact free_call (h.free j) hnext hc hx hheld
    · rw [hcourse hji] at hx
      rw [hother hji] at hheld
      refine (h.content_kept hi hr (Or.inr ?_)).trans (h.free j x hx hheld)
      exact h.excludes j i x.key hji hheld
  · by_cases hji : j = i
    · subst hji
      rw [hmine]
      rw [hself] at hw
      refine written_call (h.named j) hfiles (fun hwriting => ?_) (fun hwriting => ?_)
        hx hnext hc hw
      · obtain ⟨n, hwork⟩ := Work.isWriting_iff.mp hwriting
        exact hsmooth.succeeds (by simp [hwork])
      · exact h.written j x hwriting hx
    · rw [hcourse hji]
      rw [hother hji] at hw
      have hbusy : (c.filing j).work ≠ .clear := by
        intro hclear
        rw [hclear] at hw
        cases hw
      have hheld : x.key ∈ (c.filing j).held := hviewed.locked_own hbusy x hx
      refine (h.content_kept hi hr (Or.inr ?_)).trans (h.written j x hw hx)
      exact h.excludes j i x.key hji hheld
  · dsimp only [State.after]
    cases he : c.effect i o r with
    | none => simpa using h.plays
    | some e =>
      have hplays := h.plays.concat e (hdone.1 e he)
      simpa using hplays
  · dsimp only [State.after]
    cases he : c.effect i o r with
    | none => simpa using h.once
    | some e =>
      have hnot : i ∉ c.order.map Prod.fst := by
        rw [List.mem_map]
        rintro ⟨⟨j, e'⟩, hmem, rfl⟩
        have hmade := ((h.noted j e').mp hmem).1
        rw [(effect_eq_some.mp he).2.1] at hmade
        cases hmade
      have honce := h.once.concat hnot
      simpa using honce
  · have hdeed : (c.after (c.advance i o r (k r, l', u') s') (.calls i o r)).deed j = c.deed j :=
      rfl
    rw [hdeed]
    have horder : (j, e) ∈ (c.after (c.advance i o r (k r, l', u') s') (.calls i o r)).order ↔
        (j, e) ∈ c.order ∨ c.effect i o r = some e ∧ j = i := by
      dsimp only [State.after]
      rw [List.mem_append, Option.mem_toList, Option.map_eq_some_iff]
      refine or_congr_right ⟨?_, ?_⟩
      · rintro ⟨e', he, hpair⟩
        cases hpair
        exact ⟨he, rfl⟩
      · rintro ⟨he, rfl⟩
        exact ⟨e, he, rfl⟩
    rw [horder, h.noted]
    by_cases hji : j = i
    · subst hji
      rw [hmine, effect_eq_some, hgo]
      constructor
      · rintro (⟨hm, hd⟩ | ⟨⟨hm, -, hd⟩, -⟩)
        · exact ⟨Course.next_made_mono hc hm, hd⟩
        · exact ⟨hm, hd⟩
      · rintro ⟨hm, hd⟩
        cases hbefore : (c.course j).made with
        | true => exact Or.inl ⟨rfl, hd⟩
        | false => exact Or.inr ⟨⟨hm, rfl, hd⟩, rfl⟩
    · rw [hcourse hji]
      exact or_iff_left fun hboth => hji hboth.2
  · by_cases hji : j = i
    · subst hji
      rw [hmine] at hm
      cases hbefore : (c.course j).made with
      | true => exact h.arrived j f n hbefore ht
      | false => exact Course.arrived_of_made hallowed hc ht hbefore hm
    · rw [hcourse hji] at hm
      exact h.arrived j f n hm ht

lemma step (h : Inv env start c) (hs : CarefulStep env c c') : Inv env start c' := by
  obtain ⟨e, ⟨b, hstep, rfl⟩, hcareful, hcounts⟩ := hs
  have hinv : Agreement.Inv env b := by
    refine h.toInv.step ⟨e, hstep, hcareful.1, ?_⟩
    cases e <;> exact hcounts
  cases hstep with
  | start host user req payload hi hl => exact h.start_step hi hinv
  | call r hi hr => exact h.call_step hi hr hcareful hinv

lemma run (h : Inv env start c) (hrun : ReflTransGen (CarefulStep env) c c') :
    Inv env start c' := by
  induction hrun with
  | refl => exact h
  | tail _ hs ih => exact ih.step hs

/-- A request that is in the middle of its task is not over. -/
lemma unfinished (h : Inv env start c) (hbusy : (c.filing i).work ≠ .clear) : c.Unfinished i := by
  cases hi : c.requests.thread i with
  | none =>
    rw [(h.fresh i hi).1] at hbusy
    exact (hbusy rfl).elim
  | some t =>
    obtain ⟨p, l, u⟩ := t
    refine ⟨p, l, u, hi, ?_⟩
    rintro r rfl
    exact hbusy (h.clear_of_finished hi)

lemma serial {s : Store} (h : Inv env (contents env.cwd s.disk) c) : Serial env s c where
  plays := h.plays
  once := h.once
  asked i e hmem := ((h.noted i e).mp hmem).2
  arrived i e hmem f n htask := h.arrived i f n ((h.noted i e).mp hmem).1 htask
  settled x hx := by
    have hquiet : ∀ i, ¬ (x ∈ own (c.user i) (c.task i) ∧ (c.filing i).work ≠ .clear) :=
      fun i hi => hx i (h.unfinished hi.2) hi.1
    have hview : x.content env.cwd c.requests.shared.disk = c.files (names x) :=
      h.viewed.rest x hquiet
    have hmatches : Matches (x.size c.requests.shared.index)
        (x.content env.cwd c.requests.shared.disk) := h.kept.rest x hquiet
    rw [hview] at hmatches
    exact ⟨hview, hmatches⟩
  success i r l u ch hi hr htask := by
    have hanswers := (safe_ofExcept r).mp (h.goes i _ l u hi).2 ch htask
    refine (hanswers.1 hr).imp_left fun hmade => (h.noted i _).mpr ⟨hmade, ?_⟩
    rw [State.deed, htask]
    rfl
  failure i r l u hi hr hunmarred e hmem := by
    obtain ⟨hmade, hdeed⟩ := (h.noted i e).mp hmem
    obtain ⟨ch, htask, -⟩ := Option.map_eq_some_iff.mp hdeed
    have hanswers := (safe_ofExcept r).mp (h.goes i _ l u hi).2 ch htask
    have hmarred := hanswers.2 hr hmade
    rw [hunmarred] at hmarred
    cases hmarred

end Inv

section Order

variable {env : Env} {c c' : State} {i : ℕ}

lemma Step.requests {e : Event} (hs : Step env c e c') :
    Threads.Step IsRequest (watched env) c.requests c'.requests := by
  obtain ⟨b, hstep, rfl⟩ := hs
  cases e <;> exact hstep.requests

lemma Step.finished {e : Event} (hs : Step env c e c') (h : c.Finished i) : c'.Finished i := by
  obtain ⟨r, l, u, hi⟩ := h
  obtain ⟨b, hstep, rfl⟩ := hs
  refine ⟨r, l, u, ?_⟩
  cases hstep with
  | @start j _ host user req payload hj _ =>
    have hne : i ≠ j := by
      rintro rfl
      cases hi.symm.trans hj
    exact (Threads.set_thread_ne hne ..).trans hi
  | @call j o k _ _ _ _ _ r' hj _ =>
    have hne : i ≠ j := by
      rintro rfl
      have hp := congrArg Prod.fst (Option.some.inj (hi.symm.trans hj))
      cases r <;> cases hp
    exact (Threads.set_thread_ne hne ..).trans hi

/-- What a step adds to the order is of a request that is not over. -/
lemma Step.adds {e : Event} (hs : Step env c e c') :
    ∃ rest, c'.order = c.order ++ rest ∧ ∀ a ∈ rest, ¬ c.Finished a.1 := by
  obtain ⟨b, hstep, rfl⟩ := hs
  cases hstep with
  | start host user req payload hj _ => exact ⟨[], (List.append_nil _).symm, nofun⟩
  | @call i o k l u l' u' s' r hi _ =>
    refine ⟨_, rfl, fun a ha => ?_⟩
    rw [Option.mem_toList, Option.map_eq_some_iff] at ha
    obtain ⟨e, -, rfl⟩ := ha
    rintro ⟨r', l₁, u₁, hj⟩
    have hp := congrArg Prod.fst (Option.some.inj (hj.symm.trans hi))
    cases r' <;> cases hp

lemma goesOn_run (h : ∀ a ∈ c.order, c.asked a.1 ≠ none)
    (hrun : ReflTransGen (CarefulStep env) c c') :
    GoesOn c c' ∧ ∀ i, c.Finished i → c'.Finished i := by
  induction hrun with
  | refl => exact ⟨⟨⟨[], (List.append_nil _).symm, nofun⟩, h⟩, fun _ => id⟩
  | tail _ hs ih =>
    obtain ⟨⟨⟨rest, horder, hrest⟩, -⟩, hkept⟩ := ih
    obtain ⟨e, hstep, -⟩ := hs
    obtain ⟨more, hmore, hnew⟩ := hstep.adds
    refine ⟨⟨⟨rest ++ more, ?_, fun a ha => ?_⟩, h⟩, fun i hi => hstep.finished (hkept i hi)⟩
    · rw [hmore, horder, List.append_assoc]
    · obtain ha | ha := List.mem_append.mp ha
      · exact hrest a ha
      · exact fun hf => hnew a ha (hkept _ hf)

end Order

/-- In a run without the failures that part index and disk, the requests take effect one after the
other, each once between its beginning and its end, as the answers say. -/
theorem serial_of_careful (env : Env) (s : Store) (hs : s.locks = .initial)
    (hagree : ∀ u f, IsPlain u → IsPlain f → Agrees env.cwd s u f) (c c' : State)
    (h : ReflTransGen (CarefulStep env) (.idle env.cwd s) c)
    (h' : ReflTransGen (CarefulStep env) c c') : Serial env s c' ∧ GoesOn c c' := by
  have hidle : Inv env (contents env.cwd s.disk) (.idle env.cwd s) :=
    inv_idle hs fun x => (agrees_iff x).mp (hagree _ _ x.user_plain x.file_plain)
  have hinv := hidle.run h
  refine ⟨(hinv.run h').serial, (goesOn_run (fun a ha hnone => ?_) h').1⟩
  obtain ⟨-, hdeed⟩ := (hinv.noted a.1 a.2).mp ha
  rw [State.deed, FileRequests.State.task, hnone] at hdeed
  cases hdeed

section Few

variable {env : Env} {p q : Code (Reply × Bytes)} {l l' : Local} {u u' : Usage} {s' : Store}
variable {c c' : State} {i m : ℕ}

lemma run_requests (hrun : ReflTransGen (CarefulStep env) c c') :
    Threads.Run IsRequest (watched env) c.requests c'.requests :=
  hrun.lift (fun c => c.requests) fun _ _ ⟨_, hstep, _⟩ => hstep.requests

lemma begin_few (hm : m < 2 ^ 32 - 1) (hreach : LockBalance.Reachable env c.requests)
    (hfew : ∀ j, m ≤ j → c.requests.thread j = none) (hi : c.requests.thread i = none)
    (host : Endian) (user : Bytes) (req : Request) (payload : Bytes)
    (hnamed : ∀ ch, taskOf req payload = some ch → Named user ch.touches) (hl : l.self = i) :
    CarefulStep env c (c.after
      (c.begin i (dispatch host user req payload, l, .start) (user, req, payload))
      (.begins i l user req payload)) := by
  refine ⟨_, ⟨_, .start host user req payload hi hl, rfl⟩, ⟨hnamed, nofun⟩, ?_⟩
  exact not_wraps_of_few hm hreach hfew

/-- One of few requests makes calls that are careful in any state. -/
lemma run_few (hm : m < 2 ^ 32 - 1) (hreach : LockBalance.Reachable env c.requests)
    (hfew : ∀ j, m ≤ j → c.requests.thread j = none) (hi : i < m)
    (ht : c.requests.thread i = some (p, l, u))
    (h : Steps (harmlessly env) (p, ((l, u), c.requests.shared)) (q, ((l', u'), s'))) :
    ∃ c', ReflTransGen (CarefulStep env) c c' ∧ c'.requests = c.requests.set i (q, l', u') s' ∧
      c'.asked = c.asked ∧ c'.before = c.before := by
  generalize hb : (q, ((l', u'), s')) = b at h
  induction h generalizing q l' u' s' with
  | refl =>
    cases hb
    exact ⟨c, .refl, (Threads.set_eq_self ht).symm, rfl, rfl⟩
  | @tail d _ _ hlast ih =>
    obtain ⟨q₁, ⟨l₁, u₁⟩, s₁⟩ := d
    cases hb
    obtain ⟨c₁, hrun, hrequests, hasked, hbefore⟩ := ih rfl
    cases hlast with
    | @call o k _ _ r hr =>
      obtain ⟨⟨htakes, hok⟩, hnext⟩ := Option.ite_none_right_eq_some.mp hr
      have hi₁ : c₁.requests.thread i = some (.op o k, l₁, u₁) := by
        rw [hrequests, Threads.set_thread_self]
      have hr₁ : watched env o ((l₁, u₁), c₁.requests.shared) r = some ((l', u'), s') := by
        rw [hrequests]
        exact hnext
      refine ⟨_, hrun.tail ⟨_, ⟨_, .call r hi₁ hr₁, rfl⟩, ⟨⟨fun _ => hok, ?_, ?_⟩, ?_⟩, ?_⟩, ?_,
        hasked, hbefore⟩
      · rintro p rfl
        cases htakes
      · rintro p q rfl
        cases htakes
      · rintro j p he
        cases he
        cases htakes
      · refine not_wraps_of_few hm (hreach.run (run_requests hrun)) fun j hj => ?_
        rw [hrequests, Threads.set_thread_ne (by omega)]
        exact hfew j hj
      · rw [State.after, FileRequests.State.advance, hrequests, Threads.set_set]

end Few

lemma unfinished {c : State} {i : ℕ} {p : Code (Reply × Bytes)} {l : Local} {u : Usage}
    (hi : c.requests.thread i = some (p, l, u)) (hp : p.isOver = false) : c.Unfinished i := by
  refine ⟨p, l, u, hi, ?_⟩
  rintro r rfl
  cases r <;> cases hp

/-- The first calls of a request that uploads `x`, or of what is left of one. -/
def plays (n : ℕ) (c : Code (Reply × Bytes) × Local × Usage) (s : Store) :
    Option (Prog.Running Call Answer Exn (Reply × Bytes) ((Local × Usage) × Store)) :=
  follow (fun o m => oblige .atRoot o (m.1.1, m.2)) (harmlessly .atRoot) n c.1 (c.2, s)

def begun (i : ℕ) (byte : UInt8) : Code (Reply × Bytes) × Local × Usage :=
  (dispatch .little (bytes "bob") uploadX [], .fresh i [byte] true, .start)

/-- Of two uploads of `x`, one comes to the lock, and the other has it first. -/
lemma plays_two : ((plays 5 (begun 1 0x42) LockBalance.bare).any fun a => !a.1.isOver &&
    (plays 6 (begun 0 0x41) a.2.2).any fun b => !b.1.isOver &&
      (plays 40 (b.1, b.2.1) b.2.2).any fun d => isSuccess d.1 &&
        (plays 40 (a.1, a.2.1) d.2.2).any fun e => isSuccess e.1) = true := by
  decide +kernel

/-- A careful run of two uploads of `x`. -/
structure Two (c : State) : Prop where
  run : ReflTransGen (CarefulStep .atRoot) (.idle Env.atRoot.cwd LockBalance.bare) c
  few : ∀ j, 2 ≤ j → c.requests.thread j = none

namespace Two

variable {c : State} {i n : ℕ} {p q : Code (Reply × Bytes)} {l l' : Local}
  {u u' : Usage} {s : Store}

lemma reachable (h : Two c) : LockBalance.Reachable .atRoot c.requests :=
  ⟨LockBalance.bare, rfl, run_requests h.run⟩

lemma goesOn (h : Two c) (hi : i < 2) (ht : c.requests.thread i = some (p, l, u))
    (hplays : plays n (p, l, u) c.requests.shared = some (q, ((l', u'), s))) :
    ∃ c', ReflTransGen (CarefulStep .atRoot) c c' ∧ Two c' ∧
      c'.requests = c.requests.set i (q, l', u') s ∧ c'.asked = c.asked ∧ c'.before = c.before := by
  obtain ⟨c', hrun, hrequests, hasked, hbefore⟩ :=
    run_few (by decide) h.reachable h.few hi ht (steps_of_follow hplays)
  refine ⟨c', hrun, ⟨h.run.trans hrun, fun j hj => ?_⟩, hrequests, hasked, hbefore⟩
  rw [hrequests, Threads.set_thread_ne (by omega)]
  exact h.few j hj

lemma begins (h : Two c) (hi : i < 2) (hnone : c.requests.thread i = none) {byte : UInt8}
    (hplays : plays n (begun i byte) c.requests.shared = some (q, ((l', u'), s))) :
    ∃ c', ReflTransGen (CarefulStep .atRoot) c c' ∧ Two c' ∧
      c'.requests = c.requests.set i (q, l', u') s ∧
      c'.asked = Function.update c.asked i (some (bytes "bob", uploadX, [])) ∧
      c'.before = Function.update c.before i (Local.fresh i [byte] true).conn := by
  have hnamed : ∀ ch, taskOf uploadX [] = some ch → Named (bytes "bob") ch.touches :=
    fun ch hch => Or.inr ⟨FileIdentity.plain_bob, by cases hch; decide⟩
  have hstep := begin_few (by decide) h.reachable h.few hnone .little (bytes "bob") uploadX []
    hnamed (l := .fresh i [byte] true) rfl
  have hbegun : Two (c.after (c.begin i (begun i byte) (bytes "bob", uploadX, []))
      (.begins i (.fresh i [byte] true) (bytes "bob") uploadX [])) :=
    ⟨h.run.tail hstep, fun j hj => (Threads.set_thread_ne (by omega) ..).trans (h.few j hj)⟩
  obtain ⟨c', hrun, htwo, hrequests, hasked, hbefore⟩ :=
    hbegun.goesOn hi (Threads.set_thread_self ..) hplays
  refine ⟨c', .head hstep hrun, htwo, ?_, hasked, hbefore⟩
  rw [hrequests]
  exact Threads.set_set ..

end Two

/-- An upload that has succeeded is in the order. -/
lemma mem_order {c : State} {i : ℕ} {reply : Reply} {x : Bytes} {l : Local} {u : Usage}
    {byte : UInt8} (hserial : Serial .atRoot LockBalance.bare c)
    (ht : c.requests.thread i = some (.pure (reply, x), l, u)) (hr : reply.Success)
    (hasked : c.asked i = some (bytes "bob", uploadX, []))
    (hbefore : c.before i = (Local.fresh i [byte] true).conn) :
    (i, .put (bytes "bob", bytes "x") [byte]) ∈ c.order := by
  have huser : c.user i = bytes "bob" := by rw [FileRequests.State.user, hasked]; rfl
  have htask : c.task i = some (.put (bytes "x") 1) := by rw [FileRequests.State.task, hasked]; rfl
  obtain hmem | ⟨f, g, ⟨⟩, -⟩ := hserial.success i (.ok (reply, x)) l u _ ht hr htask
  rw [huser, hbefore] at hmem
  exact hmem

/-- Two uploads of `x` are under way at one time, and both are then in the order. -/
theorem serial_of_careful_bob : ∃ c c', ReflTransGen (CarefulStep .atRoot)
      (.idle Env.atRoot.cwd LockBalance.bare) c ∧ ReflTransGen (CarefulStep .atRoot) c c' ∧
    (c.Unfinished 0 ∧ c.Unfinished 1) ∧
    (0, .put (bytes "bob", bytes "x") [0x41]) ∈ c'.order ∧
    (1, .put (bytes "bob", bytes "x") [0x42]) ∈ c'.order ∧
    Serial .atRoot LockBalance.bare c' ∧ GoesOn c c' := by
  obtain ⟨⟨qa, ⟨la, ua⟩, sa⟩, ha, hrest⟩ := (Option.any_eq_true _ _).mp plays_two
  obtain ⟨hovera, hrest⟩ := Bool.and_eq_true_iff.mp hrest
  obtain ⟨⟨qb, ⟨lb, ub⟩, sb⟩, hb, hrest⟩ := (Option.any_eq_true _ _).mp hrest
  obtain ⟨hoverb, hrest⟩ := Bool.and_eq_true_iff.mp hrest
  obtain ⟨⟨qd, ⟨ld, ud⟩, sd⟩, hd, hrest⟩ := (Option.any_eq_true _ _).mp hrest
  obtain ⟨hsuccessd, hrest⟩ := Bool.and_eq_true_iff.mp hrest
  obtain ⟨⟨qe, ⟨le, ue⟩, se⟩, he, hsuccesse⟩ := (Option.any_eq_true _ _).mp hrest
  obtain ⟨replyd, xd, rfl, hrd⟩ := exists_of_isSuccess hsuccessd
  obtain ⟨replye, xe, rfl, hre⟩ := exists_of_isSuccess hsuccesse
  have hidle : Two (.idle Env.atRoot.cwd LockBalance.bare) := ⟨.refl, fun _ _ => rfl⟩
  obtain ⟨c₁, hrun₁, htwo₁, hrequests₁, hasked₁, hbefore₁⟩ :=
    hidle.begins (i := 1) (by decide) rfl ha
  have hnone : c₁.requests.thread 0 = none := by
    rw [hrequests₁, Threads.set_thread_ne (by decide)]
    rfl
  have hb₁ : plays 6 (begun 0 0x41) c₁.requests.shared = some (qb, ((lb, ub), sb)) := by
    rw [hrequests₁]
    exact hb
  obtain ⟨c, hrun₂, htwo, hrequests, hasked, hbefore⟩ :=
    htwo₁.begins (i := 0) (by decide) hnone hb₁
  have ht₀ : c.requests.thread 0 = some (qb, lb, ub) := by
    rw [hrequests, Threads.set_thread_self]
  have ht₁ : c.requests.thread 1 = some (qa, la, ua) := by
    rw [hrequests, Threads.set_thread_ne (by decide), hrequests₁, Threads.set_thread_self]
  have hd₀ : plays 40 (qb, lb, ub) c.requests.shared =
      some (.pure (replyd, xd), ((ld, ud), sd)) := by
    rw [hrequests]
    exact hd
  obtain ⟨c₃, hrun₃, htwo₃, hrequests₃, hasked₃, hbefore₃⟩ :=
    htwo.goesOn (i := 0) (by decide) ht₀ hd₀
  have ht₃ : c₃.requests.thread 1 = some (qa, la, ua) := by
    rw [hrequests₃, Threads.set_thread_ne (by decide), ht₁]
  have he₁ : plays 40 (qa, la, ua) c₃.requests.shared =
      some (.pure (replye, xe), ((le, ue), se)) := by
    rw [hrequests₃]
    exact he
  obtain ⟨c', hrun₄, htwo', hrequests', hasked', hbefore'⟩ :=
    htwo₃.goesOn (i := 1) (by decide) ht₃ he₁
  have hrun := hrun₁.trans hrun₂
  obtain ⟨hserial, hgoes⟩ := serial_of_careful .atRoot LockBalance.bare rfl
    (fun u f _ _ => agrees_bare _ u f) c c' hrun (hrun₃.trans hrun₄)
  have ht₀' : c'.requests.thread 0 = some (.pure (replyd, xd), ld, ud) := by
    rw [hrequests', Threads.set_thread_ne (by decide), hrequests₃, Threads.set_thread_self]
  have ht₁' : c'.requests.thread 1 = some (.pure (replye, xe), le, ue) := by
    rw [hrequests', Threads.set_thread_self]
  refine ⟨c, c', hrun, hrun₃.trans hrun₄, ⟨unfinished ht₀ ?_, unfinished ht₁ ?_⟩, ?_, ?_,
    hserial, hgoes⟩
  · simpa using hoverb
  · simpa using hovera
  · refine mem_order hserial ht₀' hrd ?_ ?_
    · rw [hasked', hasked₃, hasked, Function.update_self]
    · rw [hbefore', hbefore₃, hbefore, Function.update_self]
  · refine mem_order hserial ht₁' hre ?_ ?_
    · rw [hasked', hasked₃, hasked, Function.update_of_ne (by decide), hasked₁,
        Function.update_self]
    · rw [hbefore', hbefore₃, hbefore, Function.update_of_ne (by decide), hbefore₁,
        Function.update_self]

end Mtfss.SerialFiles
