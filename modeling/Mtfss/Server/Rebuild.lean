import Mtfss.Server.FileManager

/-! `MetadataManager::rebuild_from_disk`, which is called before the server starts. -/

namespace Mtfss

open Paths

/-- The orders in which `std::filesystem::directory_iterator` goes through the directories of a
disk. -/
structure Listing (d : Disk) where
  names : Loc → List Bytes
  mem_names : ∀ l name, d.isDir l = true → (name ∈ names l ↔ d.node (l ++ [name]) ≠ none)

namespace Listing

variable {d : Disk}

/-- The entries of a directory, if it can be opened. -/
def iterate (ls : Listing d) (l : Loc) : Except Exn (List Bytes) :=
  if d.isDir l && !d.denied l then .ok (ls.names l) else .error .filesystemError

/-- The order of the places in `support`. -/
def ofSupport (d : Disk) : Listing d where
  names l := (d.support.filter
    (fun m => m.length == l.length + 1 && l.isPrefixOf m && d.existsAt m)).flatMap
    (fun m => m.drop l.length)
  mem_names l name _ := by
    simp only [List.mem_flatMap, List.mem_filter, Bool.and_eq_true, beq_iff_eq,
      List.isPrefixOf_iff_prefix]
    constructor
    · rintro ⟨m, ⟨-, ⟨hlen, t, rfl⟩, hex⟩, hname⟩
      rw [List.length_append, Nat.add_left_cancel_iff] at hlen
      obtain ⟨x, rfl⟩ := List.length_eq_one_iff.mp hlen
      rw [List.drop_left, List.mem_singleton] at hname
      subst hname
      simpa [Disk.existsAt, Option.isSome_iff_ne_none] using hex
    · intro h
      refine ⟨l ++ [name], ⟨d.mem_support _ h, ⟨by simp, List.prefix_append _ _⟩, ?_⟩, by simp⟩
      simpa [Disk.existsAt, Option.isSome_iff_ne_none] using h

end Listing

namespace MetadataManager

variable {d : Disk}

/-- One `file_entry`. -/
def rebuildFile (d : Disk) (userLoc : Loc) (dirKey : Bytes) (clock : Bytes → Bytes) (ix : Index)
    (filename : Bytes) : Index :=
  match d.content (userLoc ++ [filename]) with
  | some c => ix.put dirKey ⟨filename, .ofNat c.length, clock filename ++ bytes " (Recovered)"⟩
  | none => ix

/-- One `user_entry`. -/
def rebuildUser (ls : Listing d) (storageLoc : Loc) (clock : Bytes → Bytes → Bytes) (ix : Index)
    (username : Bytes) : Except Exn Index :=
  let userLoc := storageLoc ++ [username]
  if d.isDir userLoc then do
    let names ← ls.iterate userLoc
    pure (names.foldl (rebuildFile d userLoc (normalizePath (indexDir username)) (clock username))
      ix)
  else pure ix

/-- `rebuild_from_disk("storage")`, with the times that the clock shows; an error when an exception
ends it. -/
def rebuildFromDisk (cwd : Cwd) (ls : Listing d) (clock : Bytes → Bytes → Bytes) :
    Except Exn Index :=
  let storageLoc := resolve cwd storage
  if d.existsAt storageLoc then do
    let names ← ls.iterate storageLoc
    names.foldlM (rebuildUser ls storageLoc clock) .empty
  else pure .empty

def recovered (clock : Bytes → Bytes) (filename content : Bytes) : FileMetadata :=
  ⟨filename, .ofNat content.length, clock filename ++ bytes " (Recovered)"⟩

lemma entry_rebuildFile (userLoc : Loc) (key : Bytes) (clock : Bytes → Bytes) (ix : Index)
    (name k f : Bytes) : (rebuildFile d userLoc key clock ix name).entry k f =
      if k = key ∧ f = name ∧ d.isRegularFile (userLoc ++ [name]) = true then
        (d.content (userLoc ++ [f])).map (recovered clock f)
      else ix.entry k f := by
  rw [rebuildFile, Disk.isRegularFile]
  cases hc : d.content (userLoc ++ [name]) with
  | none => simp
  | some c =>
    simp only [Index.entry_put, Option.isSome_some, and_true]
    split
    · rename_i h
      rw [h.2, hc]
      rfl
    · rfl

lemma entry_rebuildFiles (userLoc : Loc) (key : Bytes) (clock : Bytes → Bytes) (names : List Bytes)
    (ix : Index) (k f : Bytes) : (names.foldl (rebuildFile d userLoc key clock) ix).entry k f =
      if k = key ∧ f ∈ names ∧ d.isRegularFile (userLoc ++ [f]) = true then
        (d.content (userLoc ++ [f])).map (recovered clock f)
      else ix.entry k f := by
  induction names generalizing ix with
  | nil => simp
  | cons name names ih =>
    rw [List.foldl_cons, ih, entry_rebuildFile]
    by_cases hk : k = key
    · by_cases hf : f = name
      · subst hf
        by_cases hr : d.isRegularFile (userLoc ++ [f]) = true <;> simp [hk, hr]
      · simp [hk, hf]
    · simp [hk]

end MetadataManager

end Mtfss
