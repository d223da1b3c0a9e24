import Mtfss.Properties.FileIdentity
import Mtfss.Server.Rebuild
import Mtfss.Server.Requests
import Mtfss.Properties.FailedUpload
import Mtfss.System.Oblige

/-! What the index holds after it has been rebuilt from the disk. -/

namespace Mtfss.Restart

open Effects Paths Server StorageRoot FileIdentity FailedUpload MetadataManager

variable {cwd : Cwd} {d : Disk} {ls : Listing d} {clock : Bytes → Bytes → Bytes} {ix ix' : Index}

lemma storageLoc_ne_nil (cwd : Cwd) : storageLoc cwd ≠ [] := by
  simp [storageLoc_eq]

lemma node_of_regular {l : Loc} (h : d.isRegularFile l = true) : d.node l ≠ none := by
  obtain ⟨c, hc⟩ := Option.isSome_iff_exists.mp h
  simp [Disk.content_eq_some.mp hc]

lemma isDir_of_regular {l : Loc} {f : Bytes} (hl : l ≠ []) (h : d.isRegularFile (l ++ [f]) = true) :
    d.isDir l = true := by
  simp [Disk.isDir, d.in_dir l f (node_of_regular h) hl]

lemma entry_rebuildUser {l : Loc} {n : Bytes} (hn : IsName n)
    (h : rebuildUser ls l clock ix n = .ok ix') (k f : Bytes) : ix'.entry k f =
      if k = indexDir n ∧ d.isRegularFile (l ++ [n] ++ [f]) = true then
        (d.content (l ++ [n] ++ [f])).map (recovered (clock n) f)
      else ix.entry k f := by
  have hdir : d.isRegularFile (l ++ [n] ++ [f]) = true → d.isDir (l ++ [n]) = true :=
    isDir_of_regular (by simp)
  rw [rebuildUser] at h
  split at h
  · rename_i hisdir
    rw [Listing.iterate] at h
    split at h
    · cases h
      have hmem : d.isRegularFile (l ++ [n] ++ [f]) = true → f ∈ ls.names (l ++ [n]) := fun hr =>
        (ls.mem_names _ _ hisdir).mpr (node_of_regular hr)
      rw [entry_rebuildFiles, normalizePath_indexDir hn]
      refine if_congr ?_ rfl rfl
      exact and_congr_right fun _ => ⟨fun h => h.2, fun hr => ⟨hmem hr, hr⟩⟩
    · cases h
  · cases h
    split
    · grind
    · rfl

lemma entry_rebuildUsers {l : Loc} {names : List Bytes} (hn : ∀ n ∈ names, IsName n)
    (h : names.foldlM (rebuildUser ls l clock) ix = .ok ix') (k f : Bytes) :
    (∀ n, k = indexDir n → n ∈ names → d.isRegularFile (l ++ [n] ++ [f]) = true →
      ix'.entry k f = (d.content (l ++ [n] ++ [f])).map (recovered (clock n) f)) ∧
    ((∀ n ∈ names, k = indexDir n → d.isRegularFile (l ++ [n] ++ [f]) = false) →
      ix'.entry k f = ix.entry k f) := by
  induction names generalizing ix with
  | nil =>
    cases h
    simp
  | cons m names ih =>
    rw [List.foldlM_cons] at h
    obtain ⟨ix₁, h₁, h₂⟩ : ∃ ix₁, rebuildUser ls l clock ix m = .ok ix₁ ∧
        names.foldlM (rebuildUser ls l clock) ix₁ = .ok ix' := by
      cases h₁ : rebuildUser ls l clock ix m with
      | error e =>
        rw [h₁] at h
        cases h
      | ok ix₁ =>
        rw [h₁] at h
        exact ⟨ix₁, rfl, h⟩
    have hm := entry_rebuildUser (hn m (by simp)) h₁ k f
    obtain ⟨ih₁, ih₂⟩ := ih (fun n hmem => hn n (List.mem_cons_of_mem _ hmem)) h₂
    constructor
    · rintro n rfl hmem hr
      by_cases hrest : n ∈ names
      · exact ih₁ n rfl hrest hr
      · obtain rfl : n = m := by simpa [hrest] using hmem
        rw [ih₂ ?_, hm, if_pos ⟨rfl, hr⟩]
        intro n' hn' hk
        exact (hrest (indexDir_inj.mp hk ▸ hn')).elim
    · intro hnone
      rw [ih₂ fun n hmem => hnone n (List.mem_cons_of_mem _ hmem), hm, if_neg]
      rintro ⟨hk, hr⟩
      rw [hnone m (by simp) hk] at hr
      cases hr

/-- The index holds the files in the directories in `storage`, and nothing else. -/
lemma entry_rebuildFromDisk (h : rebuildFromDisk cwd ls clock = .ok ix) (k f : Bytes)
    (record : FileMetadata) : ix.entry k f = some record ↔
      ∃ n c, k = indexDir n ∧ d.content (storageLoc cwd ++ [n, f]) = some c ∧
        record = recovered (clock n) f c := by
  have hne := storageLoc_ne_nil cwd
  have happ : ∀ n, storageLoc cwd ++ [n, f] = storageLoc cwd ++ [n] ++ [f] := by simp
  simp only [happ]
  have hreg : ∀ {n c}, d.content (storageLoc cwd ++ [n] ++ [f]) = some c →
      d.isRegularFile (storageLoc cwd ++ [n] ++ [f]) = true := by
    intro n c hc
    rw [Disk.isRegularFile, hc]
    rfl
  simp only [rebuildFromDisk, show resolve cwd storage = storageLoc cwd from rfl] at h
  split at h
  · have hopen := h
    rw [Listing.iterate] at hopen
    split at hopen
    · rename_i hdir
      have hisdir : d.isDir (storageLoc cwd) = true := (Bool.and_eq_true_iff.mp hdir).1
      have hnames : ∀ n ∈ ls.names (storageLoc cwd), IsName n := fun n hn =>
        d.named _ ((ls.mem_names _ _ hisdir).mp hn) n (by simp [List.tail_append_of_ne_nil hne])
      obtain ⟨hfound, hnone⟩ := entry_rebuildUsers hnames hopen k f
      have hlisted : ∀ n, d.isRegularFile (storageLoc cwd ++ [n] ++ [f]) = true →
          n ∈ ls.names (storageLoc cwd) := by
        intro n hr
        have hdir := isDir_of_regular (by simp) hr
        apply (ls.mem_names _ _ hisdir).mpr
        simp only [Disk.isDir, beq_iff_eq] at hdir
        simp [hdir]
      constructor
      · intro hentry
        by_cases hsome : ∃ n, k = indexDir n ∧ d.isRegularFile (storageLoc cwd ++ [n] ++ [f]) = true
        · obtain ⟨n, hk, hr⟩ := hsome
          obtain ⟨c, hc⟩ := Option.isSome_iff_exists.mp hr
          rw [hfound n hk (hlisted n hr) hr, hc] at hentry
          exact ⟨n, c, hk, hc, (Option.some.inj hentry).symm⟩
        · rw [hnone fun n _ hk => by simpa using fun hr => hsome ⟨n, hk, hr⟩] at hentry
          cases hentry
      · rintro ⟨n, c, hk, hc, rfl⟩
        rw [hfound n hk (hlisted n (hreg hc)) (hreg hc), hc]
        rfl
    · cases hopen
  · cases h
    constructor
    · intro hentry
      cases hentry
    · rintro ⟨n, c, -, hc, -⟩
      have hnode := d.node_of_prefix (l := storageLoc cwd) (m := [n, f]) (by
        simpa using node_of_regular (hreg hc)) hne (by simp)
      rename_i hex
      exact (hex (by rw [Disk.existsAt]; exact hnode ▸ rfl)).elim

/-- The username without one separator at its end. -/
def strip (u : Bytes) : Bytes := if u.getLast?.any isSep then u.dropLast else u

lemma strip_concat (v : Bytes) (b : Byte) :
    strip (v ++ [b]) = if isSep b = true then v else v ++ [b] := by
  rw [strip, List.getLast?_concat, List.dropLast_concat, Option.any_some]

/-- The index looks a username up under what is left of it without a separator at its end. -/
lemma normalizePath_eq_iff {u n : Bytes} (hn : IsName n) :
    normalizePath (indexDir u) = indexDir n ↔ strip u = n := by
  rcases List.eq_nil_or_concat u with rfl | ⟨v, b, rfl⟩
  · have hkey : storage ≠ indexDir n := by
      intro h
      have hlen := congrArg List.length h
      rw [indexDir, List.length_append, show storage.length = 7 by decide,
        show (bytes "storage/").length = 8 by decide] at hlen
      omega
    exact iff_of_false hkey fun h => hn.ne_nil h.symm
  · rw [List.concat_eq_append, normalizePath_concat, strip_concat]
    split
    · rw [indexDir_inj, map_slashed_eq hn.noSep]
    · rw [indexDir_inj, map_slashed_eq hn.noSep]

lemma noNul_concat {n : Bytes} (hn : IsPlain n) {b : Byte} (hb : isSep b = true) :
    nul ∉ n ++ [b] := by
  have hne : nul ≠ b := by
    rintro rfl
    cases hb
  simp [hn.noNul, hne]

lemma unrooted_concat {n : Bytes} (hn : IsPlain n) {b : Byte} (hb : isSep b = true) :
    rootName (n ++ [b]) = [] ∧ hasRootDirectory (n ++ [b]) = false := by
  have hcolon : b ≠ colon := by
    rintro rfl
    cases hb
  have hname := unrooted_iff.mp ⟨hn.noDrive, hasRootDirectory_of_name hn⟩
  rw [unrooted_iff]
  match n with
  | [] => exact (hn.ne_nil rfl).elim
  | [c] => simpa [hcolon] using hname
  | c :: x :: rest => simpa using hname

/-- A separator at the end of a username does not matter to the system. -/
lemma home_concat {n : Bytes} (hn : IsPlain n) {b : Byte} (hb : isSep b = true) :
    home cwd (n ++ [b]) = storageLoc cwd ++ [n] := by
  have hroot := unrooted_concat hn hb
  have hcut : cString (n ++ [b]) = n ++ [b] := cString_of_noNul (noNul_concat hn hb)
  have hnames : simplify (n ++ [b]) = (0, [n]) := by
    rw [simplify, relative_of_noRoot hroot.1, List.splitOnP_append_cons n [] hb,
      splitOnP_name hn.toIsName]
    simp [climb, hn.ne_nil, hn.ne_dot, hn.ne_dots]
  rw [home, if_neg (by simp [hroot.1]), hcut, hnames, base, if_pos hroot, climbed,
    List.take_of_length_le (by simp)]

lemma resolve_file_strip {u f : Bytes} (hu : IsPlain (strip u)) (hf : IsPlain f) :
    resolve cwd (filePath u f) = storageLoc cwd ++ [strip u, f] := by
  rcases List.eq_nil_or_concat u with rfl | ⟨n, b, rfl⟩
  · exact (hu.ne_nil rfl).elim
  rw [List.concat_eq_append, strip_concat] at *
  split at hu
  · rename_i hb
    have hroot : rootName (append (userDir (n ++ [b])) f) = rootName (userDir (n ++ [b])) := by
      rw [append_relative hf.noDrive (hasRootDirectory_of_name hf)]
      exact rootName_extend
        (unfinished_of_head (unrooted_iff.mp (unrooted_concat hu hb)).1) hf.noSep
    rw [if_pos hb, filePath, resolve_append_plain cwd hf (nul_notMem_userDir (noNul_concat hu hb))
      (userDir_ne_nil _) hroot, resolve_userDir, home_concat hu hb, List.append_assoc]
    rfl
  · rename_i hb
    rw [if_neg hb]
    exact resolve_file_plain cwd hu hf

/-- What the rebuilt index has to say of a file. -/
structure Restored (cwd : Cwd) (d : Disk) (ix : Index) (u f : Bytes) : Prop where
  listed : ix.fileExists (indexDir u) f = true ↔ d.isRegularFile (resolve cwd (filePath u f)) = true
  size : ix.fileExists (indexDir u) f = true →
    ∀ c, d.content (resolve cwd (filePath u f)) = some c →
    ix.getFileSize (indexDir u) f = .ofNat c.length

/-- The username is a single name, but for one separator at its end, and so is the filename, and
neither has a drive. -/
def Walked (u f : Bytes) : Prop := IsPlain (strip u) ∧ IsPlain f

def fileLength (d : Disk) (l : Loc) : Option UInt64 := (d.content l).map fun c => .ofNat c.length

section Rebuilt

variable (h : rebuildFromDisk cwd ls clock = .ok ix)

include h

/-- The index has for two names the file that bears them. -/
lemma entry_lookup (u f : Bytes) : ix.entry (normalizePath (indexDir u)) f =
    (d.content (storageLoc cwd ++ [strip u, f])).map (recovered (clock (strip u)) f) := by
  have hname : ∀ {n c}, d.content (storageLoc cwd ++ [n, f]) = some c → IsName n := fun {n c} hc =>
    d.named (storageLoc cwd ++ [n, f]) (by simp [Disk.content_eq_some.mp hc]) n
      (by simp [List.tail_append_of_ne_nil (storageLoc_ne_nil cwd)])
  apply Option.ext
  intro record
  rw [entry_rebuildFromDisk h, Option.map_eq_some_iff]
  constructor
  · rintro ⟨n, c, hk, hc, hr⟩
    obtain rfl := (normalizePath_eq_iff (hname hc)).mp hk
    exact ⟨c, hc, hr.symm⟩
  · rintro ⟨c, hc, hr⟩
    exact ⟨strip u, c, (normalizePath_eq_iff (hname hc)).mpr rfl, hc, hr.symm⟩

lemma restored_iff_length (u f : Bytes) : Restored cwd d ix u f ↔
    fileLength d (storageLoc cwd ++ [strip u, f]) = fileLength d (resolve cwd (filePath u f)) := by
  have hlookup := entry_lookup h u f
  rw [fileLength, fileLength]
  cases hlit : d.content (storageLoc cwd ++ [strip u, f]) with
  | none =>
    have hno : ix.fileExists (indexDir u) f = false := by
      rw [Index.fileExists, hlookup, hlit]
      rfl
    cases hres : d.content (resolve cwd (filePath u f)) with
    | none => exact iff_of_true ⟨by simp [hno, Disk.isRegularFile, hres], by simp [hno]⟩ rfl
    | some c =>
      refine iff_of_false (fun hr => ?_) (by simp)
      have := hr.listed.mpr (by simp [Disk.isRegularFile, hres])
      simp [hno] at this
  | some c =>
    have hyes : ix.fileExists (indexDir u) f = true := by
      rw [Index.fileExists, hlookup, hlit]
      rfl
    have hsize : ix.getFileSize (indexDir u) f = .ofNat c.length := by
      rw [Index.getFileSize, hlookup, hlit]
      rfl
    cases hres : d.content (resolve cwd (filePath u f)) with
    | none =>
      refine iff_of_false (fun hr => ?_) (by simp)
      have := hr.listed.mp hyes
      simp [Disk.isRegularFile, hres] at this
    | some c' =>
      rw [Option.map_some, Option.map_some, Option.some.injEq]
      constructor
      · exact fun hr => hsize.symm.trans (hr.size hyes c' hres)
      · intro hlen
        refine ⟨by simp [hyes, Disk.isRegularFile, hres], fun _ x hx => ?_⟩
        obtain rfl : c' = x := Option.some.inj (hres.symm.trans hx)
        exact hsize.trans hlen

end Rebuilt

/-- Every entry of the rebuilt index is a file in a directory in `storage`; and the index has what
is on disk under a username and a filename exactly when the two are single names, or the file that
bears them in `storage` and the one that they lead to are of one length or both missing. -/
theorem restored_iff (cwd : Cwd) (d : Disk) (ls : Listing d)
    (clock : Bytes → Bytes → Bytes) (ix : Index) (h : rebuildFromDisk cwd ls clock = .ok ix) :
    (∀ k f, ix.entry k f ≠ none → ∃ n, k = indexDir n ∧
      d.isRegularFile (storageLoc cwd ++ [n, f]) = true) ∧
    ∀ u f, Restored cwd d ix u f ↔ Walked u f ∨
      fileLength d (storageLoc cwd ++ [strip u, f]) =
        fileLength d (resolve cwd (filePath u f)) := by
  constructor
  · intro k f hk
    obtain ⟨record, hrecord⟩ := Option.ne_none_iff_exists'.mp hk
    obtain ⟨n, c, rfl, hc, -⟩ := (entry_rebuildFromDisk h _ _ _).mp hrecord
    refine ⟨n, rfl, ?_⟩
    rw [Disk.isRegularFile, hc]
    rfl
  · intro u f
    rw [restored_iff_length h u f]
    constructor
    · exact .inr
    · rintro (⟨hu, hf⟩ | hlen)
      · rw [resolve_file_strip hu hf]
      · exact hlen

/-- A disk that some run of the server leaves. -/
def LeftBehind (env : Env) (d : Disk) : Prop :=
  ∃ d₀ c, Threads.Run IsRequest (watched env) (.idle (.fresh d₀)) c ∧ c.shared.disk = d

/-- An upload of the file `x` by a user of a new server. -/
def uploaded (user : Bytes) :
    Option (Prog.Running Call Answer Exn (Reply × Bytes) ((Local × Usage) × Store)) :=
  follow (fun o m => oblige .atRoot o (m.1.1, m.2)) (watched .atRoot) 100
    (dispatch .little user oneByte [])
    ((.fresh 0 (bytes "a") true, .start), .fresh (.ofDir [driveRoot 0x43]))

lemma leftBehind_uploaded {user : Bytes} {q : Code (Reply × Bytes)} {m : (Local × Usage) × Store}
    (h : uploaded user = some (q, m)) : LeftBehind .atRoot m.2.disk :=
  ⟨_, _, Threads.run_thread (i := 0) rfl ⟨.little, user, oneByte, [], rfl, rfl, rfl⟩
    (steps_of_follow h), rfl⟩

def rebuilt (d : Disk) : Except Exn Index :=
  rebuildFromDisk Env.atRoot.cwd (Listing.ofSupport d) fun _ _ => []

theorem restored_bob : ∃ d ix, LeftBehind .atRoot d ∧ rebuilt d = .ok ix ∧
    d.isRegularFile (resolve Env.atRoot.cwd (filePath (bytes "bob") (bytes "x"))) = true ∧
    Restored Env.atRoot.cwd d ix (bytes "bob") (bytes "x") := by
  have hend : (uploaded (bytes "bob")).any
      (fun c => (rebuilt c.2.2.disk).isOk && c.2.2.disk.isRegularFile
    (resolve Env.atRoot.cwd (filePath (bytes "bob") (bytes "x")))) = true := by
    decide +kernel
  obtain ⟨⟨q, m⟩, hrun, hcheck⟩ := (Option.any_eq_true _ _).mp hend
  simp only [Bool.and_eq_true] at hcheck
  obtain ⟨hok, hfile⟩ := hcheck
  cases hix : rebuilt m.2.disk with
  | error e => simp [hix, Except.isOk, Except.toBool] at hok
  | ok ix =>
    refine ⟨_, ix, leftBehind_uploaded hrun, hix, hfile, ?_⟩
    exact ((restored_iff _ _ _ _ ix hix).2 _ _).mpr (.inl ⟨plain_bob, by decide⟩)

/-- The file `x` of the user `a/b` is on disk, and the rebuilt index does not have it. -/
theorem not_restored : ¬ ∀ (env : Env) (d : Disk), LeftBehind env d →
    ∀ (ls : Listing d) (clock : Bytes → Bytes → Bytes) (ix : Index),
      rebuildFromDisk env.cwd ls clock = .ok ix → ∀ u f, Restored env.cwd d ix u f := by
  intro hall
  have hend : (uploaded (bytes "a/b")).any (fun c =>
      (match rebuilt c.2.2.disk with
        | .ok ix => !ix.fileExists (indexDir (bytes "a/b")) (bytes "x")
        | .error _ => false) &&
      c.2.2.disk.isRegularFile (resolve Env.atRoot.cwd (filePath (bytes "a/b") (bytes "x")))) =
        true := by
    decide +kernel
  obtain ⟨⟨q, m⟩, hrun, hcheck⟩ := (Option.any_eq_true _ _).mp hend
  simp only [Bool.and_eq_true] at hcheck
  obtain ⟨hok, hfile⟩ := hcheck
  cases hix : rebuilt m.2.disk with
  | error e => simp [hix] at hok
  | ok ix =>
    have hlisted := (hall _ _ (leftBehind_uploaded hrun) _ _ ix hix
      (bytes "a/b") (bytes "x")).listed.mpr hfile
    simp [hix, hlisted] at hok

end Mtfss.Restart
