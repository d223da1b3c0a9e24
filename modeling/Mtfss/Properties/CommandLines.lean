import Mtfss.Client.Cli
import Mtfss.Effects.Threads
import Mtfss.System.Oblige

/-! Which command lines reach the client's methods with the names that were typed. -/

namespace Mtfss.Cli

open Effects

structure IsName (a : Bytes) : Prop where
  nonempty : a ≠ []
  newline : newline ∉ a
  first : ∀ b ∈ a.head?, isSpace b = false
  last : ∀ b ∈ a.getLast?, isSpace b = false

/-- The words that stand for the method of `c`, in lower case. -/
def Command.verbs : Command → List Bytes
  | .login _ => [bytes "login"]
  | .upload _ => [bytes "upload"]
  | .download _ => [bytes "download"]
  | .delete _ => [bytes "delete", bytes "rm"]
  | .rename _ _ => [bytes "rename", bytes "mv"]
  | _ => []

/-- The arguments of `c`, separated by a space. -/
def Command.text : Command → Bytes
  | .login a | .upload a | .download a | .delete a => a
  | .rename old new => old ++ space :: new
  | _ => []

def Command.Named : Command → Prop
  | .login a | .upload a | .download a | .delete a => IsName a
  | .rename old new => IsName old ∧ IsName new
  | _ => True

/-- The first space of the arguments of `c` is the one that separates them. -/
def Command.Splits : Command → Prop
  | .rename old _ => space ∉ old
  | _ => True

def White (s : Bytes) : Prop := ∀ b ∈ s, isSpace b = true ∧ b ≠ newline

instance (s : Bytes) : Decidable (White s) :=
  inferInstanceAs (Decidable (∀ b ∈ s, isSpace b = true ∧ b ≠ newline))

/-- `line` is not skipped, and `process_command` takes it for `c`. -/
def Makes (line : Bytes) (c : Command) : Prop := trim line ≠ [] ∧ parse (trim line) = c

/-- The call of the client that `c` is typed for. -/
def Command.calls (host : Endian) : Command → Cli → Code Cli
  | .login a => call (Client.login host a)
  | .upload a => call (Client.uploadFile host a)
  | .download a => call (Client.downloadFile host a)
  | .delete a => call (Client.deleteFile host a)
  | .rename old new => call (Client.renameFile host old new)
  | _ => pure

/-- When `run` reads `line`, at first or later, the client's method is called as `c` says, once, and
after it the next line is read. -/
structure Reaches (host : Endian) (line : Bytes) (c : Command) : Prop where
  first : ∀ lines client, client.connected = true →
    run host (line :: lines) client = do
      Sys.print (bytes "\n=== MTFSS Client ===\n")
      Sys.print (bytes "Type 'help' for available commands.\n\n")
      Sys.print (bytes "mtfss> ")
      let cli ← c.calls host ⟨client, true⟩
      loop host lines cli
  later : ∀ lines cli, cli.running = true → cli.client.connected = true →
    loop host (line :: lines) cli = do
      Sys.print (bytes "mtfss> ")
      let cli' ← c.calls host cli
      loop host lines cli'

section Lists

variable {α : Type} {p : α → Bool} {xs ys : List α} {a : α}

lemma dropWhile_append_stop (ha : p a = false) :
    (xs ++ a :: ys).dropWhile p = xs.dropWhile p ++ a :: ys := by
  rw [List.dropWhile_append]
  split_ifs with h
  · rw [List.isEmpty_iff.mp h, List.dropWhile_cons_of_neg (by simp [ha]), List.nil_append]
  · rfl

lemma rdropWhile_append_stop (ha : p a = false) :
    (xs ++ a :: ys).rdropWhile p = xs ++ a :: ys.rdropWhile p := by
  have hrev : (xs ++ a :: ys).reverse = ys.reverse ++ a :: xs.reverse := by simp
  rw [List.rdropWhile, hrev, dropWhile_append_stop ha]
  simp [List.rdropWhile]

lemma takeWhile_append_stop (hxs : ∀ x ∈ xs, p x = true) (ha : p a = false) :
    (xs ++ a :: ys).takeWhile p = xs := by
  rw [List.takeWhile_append_of_pos hxs, List.takeWhile_cons_of_neg (by simp [ha]), List.append_nil]

lemma dropWhile_append_all (hxs : ∀ x ∈ xs, p x = true) (ha : p a = false) :
    (xs ++ a :: ys).dropWhile p = a :: ys := by
  rw [List.dropWhile_append_of_pos hxs, List.dropWhile_cons_of_neg (by simp [ha])]

end Lists

variable {a old new word line before after tail : Bytes} {c : Command} {b : Byte}

lemma isSpace_of_isTrimmed (h : isTrimmed b = true) : isSpace b = true := by
  simp only [isTrimmed, isSpace, Bool.or_eq_true, decide_eq_true_eq] at h ⊢
  tauto

/-- `run` leaves a vertical tab and a form feed at the ends of a line. -/
lemma isTrimmed_iff (h : isSpace b = true) :
    isTrimmed b = true ↔ b ≠ verticalTab ∧ b ≠ formFeed := by
  simp only [isSpace, Bool.or_eq_true, decide_eq_true_eq] at h
  rcases h with ((((rfl | rfl) | rfl) | rfl) | rfl) | rfl <;> decide

lemma not_isTrimmed (h : isSpace b = false) : isTrimmed b = false := by
  by_contra ht
  rw [isSpace_of_isTrimmed (by simpa using ht)] at h
  cases h

lemma toLower_of_isSpace (h : isSpace b = true) : toLower b = b := by
  simp only [isSpace, Bool.or_eq_true, decide_eq_true_eq] at h
  rcases h with ((((rfl | rfl) | rfl) | rfl) | rfl) | rfl <;> rfl

lemma not_isSpace_verbs (c : Command) :
    ∀ verb ∈ c.verbs, verb ≠ [] ∧ ∀ b ∈ verb, isSpace b = false := by
  cases c <;> simp only [Command.verbs] <;> decide +kernel

namespace IsName

lemma exists_cons (h : IsName a) : ∃ b rest, a = b :: rest ∧ isSpace b = false := by
  cases a with
  | nil => exact (h.nonempty rfl).elim
  | cons b rest => exact ⟨b, rest, rfl, h.first b rfl⟩

lemma exists_concat (h : IsName a) : ∃ init b, a = init ++ [b] ∧ isSpace b = false := by
  refine ⟨a.dropLast, a.getLast h.nonempty, (List.dropLast_append_getLast h.nonempty).symm, ?_⟩
  exact h.last _ (List.getLast?_eq_getLast_of_ne_nil h.nonempty)

lemma append (hold : IsName old) (hnew : IsName new) : IsName (old ++ space :: new) where
  nonempty := by simp
  newline h := by
    rcases List.mem_append.mp h with h | h
    · exact hold.newline h
    · rcases List.mem_cons.mp h with h | h
      · cases h
      · exact hnew.newline h
  first b hb := by
    obtain ⟨d, rest, rfl, hd⟩ := hold.exists_cons
    simp only [List.cons_append, List.head?_cons, Option.mem_def, Option.some.injEq] at hb
    exact hb ▸ hd
  last b hb := by
    obtain ⟨init, d, rfl, hd⟩ := hnew.exists_concat
    simp only [← List.cons_append, ← List.append_assoc, List.getLast?_concat, Option.mem_def,
      Option.some.injEq] at hb
    exact hb ▸ hd

end IsName

lemma isName_text (hverb : word ∈ c.verbs) (hc : c.Named) : IsName c.text := by
  cases c with
  | login => exact hc
  | upload => exact hc
  | download => exact hc
  | delete => exact hc
  | rename => exact hc.1.append hc.2
  | help => cases hverb
  | list => cases hverb
  | quit => cases hverb
  | usage => cases hverb
  | unknown => cases hverb

lemma not_isSpace_word (hverb : word.map toLower ∈ c.verbs) :
    word ≠ [] ∧ ∀ b ∈ word, isSpace b = false := by
  obtain ⟨hne, hall⟩ := not_isSpace_verbs c _ hverb
  refine ⟨fun h => hne (by rw [h, List.map_nil]), fun b hb => ?_⟩
  by_contra hspace
  have hspace : isSpace b = true := by simpa using hspace
  have hlower := hall (toLower b) (List.mem_map_of_mem hb)
  rw [toLower_of_isSpace hspace, hspace] at hlower
  cases hlower

lemma trim_line (hword : word ≠ [] ∧ ∀ b ∈ word, isSpace b = false) (ha : IsName a) :
    trim (before ++ (word ++ space :: a) ++ after) =
      before.dropWhile isTrimmed ++ (word ++ space :: a) ++ after.rdropWhile isTrimmed := by
  obtain ⟨b, rest, rfl⟩ := List.exists_cons_of_ne_nil hword.1
  obtain ⟨init, d, rfl, hd⟩ := ha.exists_concat
  have hb : isTrimmed b = false := not_isTrimmed (hword.2 b List.mem_cons_self)
  rw [trim, List.append_assoc, List.cons_append, List.cons_append, dropWhile_append_stop hb]
  have hsplit : ∀ front : Bytes, front ++ b :: (rest ++ space :: (init ++ [d]) ++ after) =
      (front ++ b :: (rest ++ space :: init)) ++ d :: after := by
    intro front
    simp
  rw [hsplit, rdropWhile_append_stop (not_isTrimmed hd)]
  simp

/-- What is left of the white space before the verb is skipped, and what is left of the white space
after the names belongs to them. -/
lemma parts_of_line (hword : word ≠ [] ∧ ∀ b ∈ word, isSpace b = false) (ha : IsName a)
    (hbefore : ∀ b ∈ before, isSpace b = true) (htail : newline ∉ tail) :
    command (before ++ (word ++ space :: a) ++ tail) = word.map toLower ∧
      argument (before ++ (word ++ space :: a) ++ tail) = a ++ tail := by
  obtain ⟨b, rest, rfl⟩ := List.exists_cons_of_ne_nil hword.1
  have hskip : (before ++ (b :: rest ++ space :: a) ++ tail).dropWhile isSpace =
      b :: rest ++ space :: (a ++ tail) := by
    rw [List.append_assoc, List.cons_append, List.cons_append,
      dropWhile_append_all hbefore (hword.2 b List.mem_cons_self)]
    simp
  have hchars : ∀ d ∈ b :: rest, (!isSpace d) = true := by
    intro d hd
    rw [hword.2 d hd]
    rfl
  refine ⟨?_, ?_⟩
  · rw [command, hskip, takeWhile_append_stop hchars rfl]
  · obtain ⟨d, more, rfl, hd⟩ := ha.exists_cons
    have hline : ∀ e ∈ d :: more ++ tail, (decide (e ≠ newline)) = true := by
      intro e he
      rw [decide_eq_true_eq]
      rintro rfl
      rcases List.mem_append.mp he with he | he
      · exact ha.newline he
      · exact htail he
    rw [argument, hskip, dropWhile_append_all hchars rfl, List.dropWhile_cons_of_pos rfl,
      List.cons_append, List.dropWhile_cons_of_neg (by simp [hd]), ← List.cons_append]
    exact List.takeWhile_eq_self_iff.mpr hline

lemma rest_eq_nil_iff (hafter : White after) :
    after.rdropWhile isTrimmed = [] ↔ verticalTab ∉ after ∧ formFeed ∉ after := by
  rw [List.rdropWhile_eq_nil_iff]
  constructor
  · intro h
    refine ⟨fun hb => ?_, fun hb => ?_⟩
    · exact ((isTrimmed_iff rfl).mp (h _ hb)).1 rfl
    · exact ((isTrimmed_iff rfl).mp (h _ hb)).2 rfl
  · rintro ⟨htab, hfeed⟩ b hb
    apply (isTrimmed_iff (hafter b hb).1).mpr
    exact ⟨fun h => htab (h ▸ hb), fun h => hfeed (h ▸ hb)⟩

lemma withName_append {usage : Bytes} {make : Bytes → Command} (hmake : Function.Injective make)
    (ha : a ≠ []) : withName usage make (a ++ tail) = make a ↔ tail = [] := by
  have hne : a ++ tail ≠ [] := by simp [ha]
  rw [withName, if_neg hne, hmake.eq_iff]
  simp

lemma not_mem_of_rename (h : rename a = .rename old new) : space ∉ old := by
  have hbefore : space ∉ a.takeWhile (fun b => b ≠ space) := by
    intro hmem
    simpa using List.mem_takeWhile_imp hmem
  simp only [rename] at h
  split_ifs at h
  · cases h
  · cases h
    exact hbefore
  · cases h

lemma skipBlank_name (hnew : IsName new) : skipBlank (new ++ tail) = new ++ tail := by
  obtain ⟨b, rest, rfl, hb⟩ := hnew.exists_cons
  have hblank : isBlank b = false := by
    by_contra hblank
    have hor : b = space ∨ b = tab := by
      simpa only [isBlank, Bool.not_eq_false, Bool.or_eq_true, decide_eq_true_eq] using hblank
    rcases hor with rfl | rfl <;> cases hb
  rw [skipBlank, if_neg (by simp [hblank]), List.cons_append,
    List.dropWhile_cons_of_neg (by simp [hblank])]

lemma rename_append (hold : IsName old) (hspace : space ∉ old) (hnew : IsName new) :
    rename (old ++ space :: new ++ tail) = .rename old (new ++ tail) := by
  have hchars : ∀ b ∈ old, decide (b ≠ space) = true := by
    intro b hb
    rw [decide_eq_true_eq]
    rintro rfl
    exact hspace hb
  have hmem : space ∈ old ++ space :: (new ++ tail) := by simp
  have hrest : (old ++ space :: (new ++ tail)).dropWhile (fun b => b ≠ space) =
      space :: (new ++ tail) := dropWhile_append_all hchars (by simp)
  rw [List.append_assoc, List.cons_append, rename, if_pos hmem, hrest,
    takeWhile_append_stop hchars (by simp), List.drop_one, List.tail_cons, skipBlank_name hnew]
  exact if_neg (by simp [hold.nonempty, hnew.nonempty])

lemma rename_text (hold : IsName old) (hnew : IsName new) :
    rename (old ++ space :: new ++ tail) = .rename old new ↔ space ∉ old ∧ tail = [] := by
  constructor
  · intro h
    have hspace := not_mem_of_rename h
    rw [rename_append hold hspace hnew] at h
    injection h with _ h
    exact ⟨hspace, by simpa using h⟩
  · rintro ⟨hspace, rfl⟩
    rw [rename_append hold hspace hnew, List.append_nil]

lemma choose_text (hverb : word ∈ c.verbs) (hc : c.Named) :
    choose word (c.text ++ tail) = c ↔ c.Splits ∧ tail = [] := by
  cases c with
  | login a =>
    cases List.mem_singleton.mp hverb
    have hname : IsName a := hc
    simpa [Command.Splits] using! withName_append (fun _ _ h => Command.login.inj h) hname.nonempty
  | upload a =>
    cases List.mem_singleton.mp hverb
    have hname : IsName a := hc
    simpa [Command.Splits] using! withName_append (fun _ _ h => Command.upload.inj h) hname.nonempty
  | download a =>
    cases List.mem_singleton.mp hverb
    have hname : IsName a := hc
    simpa [Command.Splits] using! withName_append (fun _ _ h => Command.download.inj h)
      hname.nonempty
  | delete a =>
    have hname : IsName a := hc
    have htaken : choose word (a ++ tail) = delete (a ++ tail) := by
      rcases List.mem_pair.mp hverb with rfl | rfl <;> rfl
    rw [Command.text, htaken]
    simpa [Command.Splits] using! withName_append (fun _ _ h => Command.delete.inj h) hname.nonempty
  | rename old new =>
    obtain ⟨hold, hnew⟩ := hc
    have htaken : ∀ argument, choose word argument = rename argument := by
      intro argument
      rcases List.mem_pair.mp hverb with rfl | rfl <;> rfl
    rw [Command.text, htaken]
    exact rename_text hold hnew
  | help => cases hverb
  | list => cases hverb
  | quit => cases hverb
  | usage => cases hverb
  | unknown => cases hverb

lemma parse_line_iff (hverb : word.map toLower ∈ c.verbs) (hc : c.Named) (hbefore : White before)
    (hafter : White after) : Makes (before ++ (word ++ space :: c.text) ++ after) c ↔
      c.Splits ∧ verticalTab ∉ after ∧ formFeed ∉ after := by
  have hword := not_isSpace_word hverb
  have hname := isName_text hverb hc
  have htail : newline ∉ after.rdropWhile isTrimmed :=
    fun h => (hafter _ ((List.rdropWhile_prefix _ _).subset h)).2 rfl
  have hwhite : ∀ b ∈ before.dropWhile isTrimmed, isSpace b = true :=
    fun b hb => (hbefore b ((List.dropWhile_sublist _).subset hb)).1
  obtain ⟨hcommand, hargument⟩ := parts_of_line hword hname hwhite htail
  have hne : before.dropWhile isTrimmed ++ (word ++ space :: c.text) ++
      after.rdropWhile isTrimmed ≠ [] := by
    simp
  rw [Makes, trim_line hword hname, parse, hcommand, hargument, choose_text hverb hc,
    rest_eq_nil_iff hafter]
  exact and_iff_right hne

lemma perform_calls (host : Endian) (hverb : word ∈ c.verbs) : perform host c = c.calls host := by
  cases c with
  | login | upload | download | delete | rename => rfl
  | help | list | quit | usage | unknown => cases hverb

lemma loop_makes (host : Endian) (lines : List Bytes) {cli : Cli} (h : Makes line c)
    (hverb : word ∈ c.verbs) (hrunning : cli.running = true)
    (hconnected : cli.client.connected = true) :
    loop host (line :: lines) cli = (do
      Sys.print (bytes "mtfss> ")
      let cli' ← c.calls host cli
      loop host lines cli') := by
  obtain ⟨hne, rfl⟩ := h
  rw [loop, hrunning, hconnected, Bool.and_self, if_pos rfl, if_neg hne, processCommand,
    perform_calls host hverb]

lemma reaches_of_makes (host : Endian) (h : Makes line c) (hverb : word ∈ c.verbs) :
    Reaches host line c where
  first lines client hconnected := by
    have hloop := @loop_makes _ _ _ host lines ⟨client, true⟩ h hverb rfl hconnected
    rw [run, hloop]
  later lines cli hrunning hconnected := loop_makes host lines h hverb hrunning hconnected

/-- A command line is taken for the command with the names that were typed unless the first name of
a rename has a space in it, or a vertical tab or a form feed follows the names; and then the
client's method is called with these names. -/
theorem typed_line_iff (c : Command) (word before after : Bytes)
    (hverb : word.map toLower ∈ c.verbs) (hc : c.Named) (hbefore : White before)
    (hafter : White after) :
    (Makes (before ++ (word ++ space :: c.text) ++ after) c ↔
      c.Splits ∧ verticalTab ∉ after ∧ formFeed ∉ after) ∧
    (c.Splits → verticalTab ∉ after → formFeed ∉ after →
      ∀ host, Reaches host (before ++ (word ++ space :: c.text) ++ after) c) := by
  have hmakes := parse_line_iff hverb hc hbefore hafter
  refine ⟨hmakes, fun hsplits htab hfeed host => ?_⟩
  exact reaches_of_makes host (hmakes.mpr ⟨hsplits, htab, hfeed⟩) hverb

theorem typed_line_rename :
    Makes (bytes " \tReName a\tb my file \r") (.rename (bytes "a\tb") (bytes "my file")) ∧
    run .little [bytes " \tReName a\tb my file \r", bytes "quit"] ⟨true, bytes "bob"⟩ = (do
      Sys.print (bytes "\n=== MTFSS Client ===\n")
      Sys.print (bytes "Type 'help' for available commands.\n\n")
      Sys.print (bytes "mtfss> ")
      let cli ← call (Client.renameFile .little (bytes "a\tb") (bytes "my file"))
        ⟨⟨true, bytes "bob"⟩, true⟩
      loop .little [bytes "quit"] cli) := by
  obtain ⟨hmakes, hreaches⟩ := typed_line_iff (.rename (bytes "a\tb") (bytes "my file"))
    (bytes "ReName") (bytes " \t") (bytes " \r") (by decide +kernel)
    ⟨by constructor <;> decide +kernel, by constructor <;> decide +kernel⟩ (by decide +kernel)
    (by decide +kernel)
  have hsplits : space ∉ bytes "a\tb" := by decide +kernel
  exact ⟨hmakes.mpr ⟨hsplits, by decide +kernel, by decide +kernel⟩,
    (hreaches hsplits (by decide +kernel) (by decide +kernel) .little).first _ _ rfl⟩

/-- What a program sends to a server that does not answer. -/
def sent (p : Code Cli) : Option (List Traffic) :=
  (follow (oblige .atRoot) (next .atRoot) 100 p
    (.fresh 0 [] true, .fresh (.ofDir []))).map (fun c => c.2.1.conn.trace)

/-- The line `rename a b c` cannot name the file `a b`. -/
theorem typed_line_split : ¬ ∀ (c : Command) (word before after : Bytes),
    word.map toLower ∈ c.verbs → c.Named → White before → White after →
      ∀ host, Reaches host (before ++ (word ++ space :: c.text) ++ after) c := by
  intro h
  have hreaches := h (.rename (bytes "a b") (bytes "c")) (bytes "rename") [] [] (by decide +kernel)
    ⟨by constructor <;> decide +kernel, by constructor <;> decide +kernel⟩ nofun nofun .little
  have hsame := congrArg sent (hreaches.later [] ⟨⟨true, []⟩, true⟩ rfl rfl)
  exact absurd hsame (by decide +kernel)

end Mtfss.Cli
