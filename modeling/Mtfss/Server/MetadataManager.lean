import Mtfss.Common.Bytes
import Mathlib.Data.List.AList

/-! The in-memory metadata index. -/

namespace Mtfss

structure FileMetadata where
  filename : Bytes
  size : UInt64
  upload_time : Bytes
  deriving DecidableEq

/-- `MetadataManager::normalize_path` -/
def normalizePath (path : Bytes) : Bytes :=
  let normalized := path.map (fun c => if c = backslash then slash else c)
  if 1 < normalized.length ∧ normalized.getLast? = some slash then normalized.dropLast
  else normalized

abbrev FileMap := AList (fun _ : Bytes => FileMetadata)

/-- `index_`: directory, then filename. Records are filed under their own names, and no directory
is kept with an empty file map. -/
structure Index where
  dirs : AList (fun _ : Bytes => FileMap)
  named : ∀ d m, dirs.lookup d = some m → ∀ f record, m.lookup f = some record → record.filename = f
  inhabited : ∀ d m, dirs.lookup d = some m → m.entries ≠ []

namespace Index

def empty : Index where
  dirs := ∅
  named := by simp
  inhabited := by simp

/-- The record filed under a normalised directory and a filename. -/
def entry (ix : Index) (dir filename : Bytes) : Option FileMetadata :=
  (ix.dirs.lookup dir).bind (AList.lookup filename)

def files (ix : Index) (dir : Bytes) : FileMap := (ix.dirs.lookup dir).getD ∅

lemma lookup_files (ix : Index) (dir filename : Bytes) :
    (ix.files dir).lookup filename = ix.entry dir filename := by
  cases h : ix.dirs.lookup dir <;> simp [files, entry, h]

lemma entry_filename (ix : Index) {dir filename : Bytes} {record : FileMetadata}
    (h : ix.entry dir filename = some record) : record.filename = filename := by
  obtain ⟨m, hm, hf⟩ := Option.bind_eq_some_iff.mp h
  exact ix.named dir m hm filename record hf

/-- `index_[dir][record.filename] = record` -/
def put (ix : Index) (dir : Bytes) (record : FileMetadata) : Index where
  dirs := ix.dirs.insert dir ((ix.files dir).insert record.filename record)
  named d m hd f n hf := by
    by_cases h : d = dir
    · subst h
      obtain rfl := Option.some.inj ((AList.lookup_insert ix.dirs).symm.trans hd)
      by_cases hfn : f = record.filename
      · subst hfn
        obtain rfl := Option.some.inj ((AList.lookup_insert _).symm.trans hf)
        rfl
      · rw [AList.lookup_insert_ne hfn, lookup_files] at hf
        exact ix.entry_filename hf
    · rw [AList.lookup_insert_ne h] at hd
      exact ix.named d m hd f n hf
  inhabited d m hd := by
    by_cases h : d = dir
    · subst h
      obtain rfl := Option.some.inj ((AList.lookup_insert ix.dirs).symm.trans hd)
      simp [AList.entries_insert]
    · rw [AList.lookup_insert_ne h] at hd
      exact ix.inhabited d m hd

lemma entry_put (ix : Index) (dir : Bytes) (record : FileMetadata) (d f : Bytes) :
    (ix.put dir record).entry d f =
      if d = dir ∧ f = record.filename then some record else ix.entry d f := by
  by_cases hd : d = dir
  · subst hd
    by_cases hf : f = record.filename
    · subst hf
      simp [entry, put]
    · simp [entry, put, AList.lookup_insert_ne hf, lookup_files, hf]
  · simp [entry, put, AList.lookup_insert_ne hd, hd]

/-- The file map of one directory replaced; the directory goes when the map is empty. -/
def setFiles (ix : Index) (dir : Bytes) (m : FileMap)
    (hm : ∀ f record, m.lookup f = some record → record.filename = f) : Index where
  dirs := if m.entries = [] then ix.dirs.erase dir else ix.dirs.insert dir m
  named d n hd f record hf := by
    by_cases h : d = dir
    · subst h
      split at hd
      · simp at hd
      · obtain rfl := Option.some.inj ((AList.lookup_insert ix.dirs).symm.trans hd)
        exact hm f record hf
    · split at hd
      · rw [AList.lookup_erase_ne h] at hd
        exact ix.named d n hd f record hf
      · rw [AList.lookup_insert_ne h] at hd
        exact ix.named d n hd f record hf
  inhabited d n hd := by
    by_cases h : d = dir
    · subst h
      split at hd
      · simp at hd
      · obtain rfl := Option.some.inj ((AList.lookup_insert ix.dirs).symm.trans hd)
        assumption
    · split at hd
      · rw [AList.lookup_erase_ne h] at hd
        exact ix.inhabited d n hd
      · rw [AList.lookup_insert_ne h] at hd
        exact ix.inhabited d n hd

lemma entry_setFiles (ix : Index) (dir : Bytes) (m : FileMap)
    (hm : ∀ f record, m.lookup f = some record → record.filename = f) (d f : Bytes) :
    (ix.setFiles dir m hm).entry d f = if d = dir then m.lookup f else ix.entry d f := by
  by_cases hd : d = dir
  · subst hd
    by_cases he : m.entries = []
    · have hm' : m = ∅ := AList.ext he
      simp [entry, setFiles, hm']
    · simp [entry, setFiles, he]
  · by_cases he : m.entries = []
    · simp [entry, setFiles, he, AList.lookup_erase_ne hd, hd]
    · simp [entry, setFiles, he, AList.lookup_insert_ne hd, hd]

/-- `index_[dir].erase(filename)`, and the directory with it when it becomes empty. -/
def drop (ix : Index) (dir filename : Bytes) : Index :=
  if (ix.dirs.lookup dir).isSome then
    ix.setFiles dir ((ix.files dir).erase filename) (by
      intro f record hf
      by_cases h : f = filename
      · subst h
        simp at hf
      · rw [AList.lookup_erase_ne h, lookup_files] at hf
        exact ix.entry_filename hf)
  else ix

lemma entry_drop (ix : Index) (dir filename d f : Bytes) :
    (ix.drop dir filename).entry d f =
      if d = dir ∧ f = filename then none else ix.entry d f := by
  cases hs : ix.dirs.lookup dir with
  | none =>
    by_cases h : d = dir ∧ f = filename
    · obtain ⟨rfl, rfl⟩ := h
      simp [drop, hs, entry]
    · simp [drop, hs, h]
  | some m =>
    simp only [drop, hs, Option.isSome_some, if_true, entry_setFiles]
    by_cases hd : d = dir
    · subst hd
      by_cases hf : f = filename
      · subst hf
        simp
      · simp [hf, AList.lookup_erase_ne hf, lookup_files]
    · simp [hd]

/-- `MetadataManager::add_file`, after the clock has been read. -/
def addFile (ix : Index) (directory filename : Bytes) (size : UInt64) (time : Bytes) : Index :=
  ix.put (normalizePath directory) ⟨filename, size, time⟩

/-- `MetadataManager::remove_file` -/
def removeFile (ix : Index) (directory filename : Bytes) : Index :=
  ix.drop (normalizePath directory) filename

/-- The directory is the one to remove, or its key begins with that of the other and a slash. -/
def isRemoved (dir key : Bytes) : Bool := key == dir || (dir ++ [slash]).isPrefixOf key

/-- `MetadataManager::remove_directory` -/
def removeDirectory (ix : Index) (directory : Bytes) : Index where
  dirs := ⟨ix.dirs.entries.filter (fun e => !isRemoved (normalizePath directory) e.1),
    ix.dirs.nodupKeys.sublist List.filter_sublist⟩
  named d m hd := by
    have hm := List.mem_of_mem_filter (AList.mem_lookup_iff.mp hd)
    exact ix.named d m (AList.mem_lookup_iff.mpr hm)
  inhabited d m hd := by
    have hm := List.mem_of_mem_filter (AList.mem_lookup_iff.mp hd)
    exact ix.inhabited d m (AList.mem_lookup_iff.mpr hm)

lemma lookup_removeDirectory (ix : Index) (directory key : Bytes) :
    (ix.removeDirectory directory).dirs.lookup key =
      if isRemoved (normalizePath directory) key = true then none else ix.dirs.lookup key := by
  ext m
  rw [← Option.mem_def, AList.mem_lookup_iff]
  have hmem : ⟨key, m⟩ ∈ (ix.removeDirectory directory).dirs.entries ↔
      ⟨key, m⟩ ∈ ix.dirs.entries ∧ isRemoved (normalizePath directory) key = false := by
    simp [removeDirectory]
  rw [hmem, ← AList.mem_lookup_iff]
  cases isRemoved (normalizePath directory) key <;> simp

lemma entry_removeDirectory (ix : Index) (directory d f : Bytes) :
    (ix.removeDirectory directory).entry d f =
      if isRemoved (normalizePath directory) d = true then none else ix.entry d f := by
  rw [entry, lookup_removeDirectory]
  split <;> rfl

/-- `MetadataManager::file_exists` -/
def fileExists (ix : Index) (directory filename : Bytes) : Bool :=
  (ix.entry (normalizePath directory) filename).isSome

/-- `MetadataManager::get_file_size` -/
def getFileSize (ix : Index) (directory filename : Bytes) : UInt64 :=
  ((ix.entry (normalizePath directory) filename).map FileMetadata.size).getD 0

/-- `MetadataManager::list_directory`, up to the order of a hash map. -/
def listDirectory (ix : Index) (directory : Bytes) : List FileMetadata :=
  (ix.files (normalizePath directory)).entries.map Sigma.snd

lemma mem_listDirectory (ix : Index) (directory : Bytes) (record : FileMetadata) :
    record ∈ ix.listDirectory directory ↔
      ix.entry (normalizePath directory) record.filename = some record := by
  rw [listDirectory, ← lookup_files, List.mem_map]
  constructor
  · rintro ⟨⟨f, n⟩, hm, rfl⟩
    have hl := AList.mem_lookup_iff.mpr hm
    rwa [ix.entry_filename ((ix.lookup_files _ _).symm.trans hl)]
  · intro h
    exact ⟨⟨record.filename, record⟩, AList.mem_lookup_iff.mp h, rfl⟩

lemma nodup_listDirectory (ix : Index) (directory : Bytes) :
    ((ix.listDirectory directory).map FileMetadata.filename).Nodup := by
  have hk := (ix.files (normalizePath directory)).keys_nodup
  have he : (ix.listDirectory directory).map FileMetadata.filename =
      (ix.files (normalizePath directory)).entries.map Sigma.fst := by
    rw [listDirectory, List.map_map]
    apply List.map_congr_left
    rintro ⟨f, n⟩ hm
    have hl := AList.mem_lookup_iff.mpr hm
    exact ix.entry_filename ((ix.lookup_files _ _).symm.trans hl)
  rw [he]
  exact hk

end Index

end Mtfss
