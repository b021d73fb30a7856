import KernelBridge.Lab.Evaluate
import KernelBridge.Lib.Paths
import Mathlib.Data.List.AList
import Mathlib.Data.List.Lex
import Mathlib.Data.List.Sort
import Mathlib.Data.String.Basic

/-!
# Sealed bundles

`seal` of `lab/research.py`, which records the digests of the files of a bundle in its
`integrity.json`, and the stage of `verify` that compares the files with the record. A bundle is a
finite map from relative paths to contents.

Both functions pass over the files that are named `integrity.json`, wherever they are, and those
with `__pycache__` among the parts of their path, the directory of the bundle included. What is left
is `Bundle.covered`. Verifying compares what the bundle covers with what it covered when it was
sealed (`verifyFiles_of_digests`), so it detects a change just if a file that is covered changes.

SHA-256 and JSON text are those of the library (`Library`). There are no symbolic links in a bundle,
and what `verify` checks after the digests is in `Lab.Study`.

Main result: `verifyFiles_detects_iff`.
-/

namespace Lab.Research

open Py Paths

/-! ## Bundles -/

/-- A directory of regular files: their paths below it, with the contents. A file is no directory,
so no path leads through another. -/
structure Bundle where
  files : AList fun _ : List String => List UInt8
  valid : ∀ path ∈ files.keys, Valid path
  tree : ∀ path ∈ files.keys, ∀ path' ∈ files.keys, path <+: path' → path = path'

/-- The functions of the library: the digest of `hashlib.sha256` as text, the bytes that `save_json`
writes, and what is read back from such bytes. -/
structure Library where
  sha256 : List UInt8 → String
  dumps : Json → List UInt8
  loads : List UInt8 → Except Exc Json

/-- The path `integrity.json`, where the record is. -/
def indexPath : List String := ["integrity.json"]

/-- What both functions ask of a file: `p.name != "integrity.json" and "__pycache__" not in p.parts`,
where the parts of `p` are those of the directory and of the path below it. -/
def included (directory path : List String) : Bool :=
  decide (path.getLastD "" ≠ "integrity.json" ∧ "__pycache__" ∉ directory ++ path)

namespace Bundle

variable (lib : Library) (directory : List String) (b : Bundle)

/-- The contents of a file, if there is one. -/
def read (path : List String) : Option (List UInt8) := b.files.lookup path

/-- `path.read_bytes()`. The subclass and the text of an `OSError` are left out. -/
def readBytes (path : List String) : Except Exc (List UInt8) :=
  match b.read path with
  | some contents => .ok contents
  | none => .error ⟨"OSError", ""⟩

/-- `path.write_bytes(contents)`, where neither the path nor anything above it is in the way. -/
def write (path : List String) (contents : List UInt8) (hvalid : Valid path)
    (hfree : ∀ path' ∈ b.files.keys, path <+: path' ∨ path' <+: path → path = path') : Bundle where
  files := b.files.insert path contents
  valid path' hpath' := by
    rcases (AList.mem_insert _).mp (AList.mem_keys.mpr hpath') with rfl | hmem
    · exact hvalid
    · exact b.valid path' (AList.mem_keys.mp hmem)
  tree path₁ hpath₁ path₂ hpath₂ hprefix := by
    rcases (AList.mem_insert _).mp (AList.mem_keys.mpr hpath₁) with rfl | hmem₁
    · rcases (AList.mem_insert _).mp (AList.mem_keys.mpr hpath₂) with rfl | hmem₂
      · rfl
      · exact hfree path₂ (AList.mem_keys.mp hmem₂) (.inl hprefix)
    · rcases (AList.mem_insert _).mp (AList.mem_keys.mpr hpath₂) with rfl | hmem₂
      · exact (hfree path₁ (AList.mem_keys.mp hmem₁) (.inr hprefix)).symm
      · exact b.tree path₁ (AList.mem_keys.mp hmem₁) path₂ (AList.mem_keys.mp hmem₂) hprefix

/-- The dict `files` of `seal`. -/
def digests : List (String × Json) :=
  ((b.files.keys.insertionSort (· ≤ ·)).filter (included directory)).map fun path =>
    (text path, .str (lib.sha256 ((b.read path).getD [])))

/-- What `seal` saves. -/
def index : Json :=
  .dict [("schema_version", .int 1), ("sha256", .dict (b.digests lib directory))]

end Bundle

/-- `seal`, on a directory with these parts. -/
def Bundle.seal (lib : Library) (directory : List String) (b : Bundle) : Except Exc Bundle :=
  if hdirectory : ∃ path ∈ b.files.keys, indexPath <+: path ∧ path ≠ indexPath then
    .error ⟨"IsADirectoryError", ""⟩
  else .ok <| b.write indexPath (lib.dumps (b.index lib directory)) (by decide) (by
    rintro path hpath (hbelow | habove)
    · by_contra hne
      exact hdirectory ⟨path, hpath, hbelow, Ne.symm hne⟩
    · -- a path has a name at least, and the index has one
      have hpos := List.length_pos_iff.mpr (b.valid path hpath).ne_nil
      exact (habove.eq_of_length_le hpos).symm)

namespace Bundle

variable (lib : Library) (directory : List String) (b : Bundle)

/-- The names of the files that meet the condition. -/
def inventory : Finset String :=
  ((b.files.keys.filter (included directory)).map text).toFinset

/-- The check of one recorded file. -/
def checkFile (name : String) (expected : Json) : Except Exc Unit :=
  let mismatch := Exc.valueError ("bundle hash/path mismatch: " ++ name)
  -- nothing is a symbolic link, so a path without a step up stays below the directory
  if isAbsolute name ∨ ".." ∈ parts name then .error mismatch
  else do
    let contents ← b.readBytes (parts name)
    if (Json.str (lib.sha256 contents)).eq expected then .ok () else .error mismatch

/-- `verify` up to the digests, on a directory that resolves to these parts. It goes on with the dict
`files`. -/
def verifyFiles : Except Exc (List (String × Json)) := do
  let index ← lib.loads (← b.readBytes indexPath)
  if index.isDict = false then .error ⟨"AttributeError", index.noAttribute "get"⟩
  else if ((index.get? "schema_version").getD .null).eq (.int 1) = false then
    .error (.valueError "invalid integrity index")
  else
    match index.get? "sha256" with
    | some (.dict files) =>
      if b.inventory directory ≠ (files.map Prod.fst).toFinset then
        .error (.valueError "bundle file inventory differs")
      else do
        files.forM fun entry => b.checkFile lib entry.1 entry.2
        return files
    | _ => .error (.valueError "invalid integrity index")

end Bundle

/-! ## What is covered -/

namespace Bundle

variable {lib : Library} {directory resolved : List String} {b recorded : Bundle}
  {path path' : List String} {contents : List UInt8} {name : String} {value : Json}

/-- The contents of a file that meets the condition. -/
def covered (directory : List String) (b : Bundle) (path : List String) : Option (List UInt8) :=
  if included directory path then b.read path else none

/-- The contents of a file that is covered. -/
theorem covered_eq_some_iff : b.covered directory path = some contents ↔
    included directory path = true ∧ b.read path = some contents := by
  simp [covered]

/-- The files of a bundle are those that can be read. -/
theorem mem_keys_iff : path ∈ b.files.keys ↔ ∃ contents, b.read path = some contents := by
  rw [← AList.mem_keys, ← AList.lookup_isSome, Option.isSome_iff_exists]
  rfl

/-- A file that is covered has a valid path. -/
theorem valid_of_covered (h : b.covered directory path = some contents) : Valid path :=
  b.valid path (mem_keys_iff.mpr ⟨contents, (covered_eq_some_iff.mp h).2⟩)

/-- The files that meet the condition are those that are covered. -/
theorem mem_filter_included : path ∈ b.files.keys.filter (included directory) ↔
    ∃ contents, b.covered directory path = some contents := by
  rw [List.mem_filter, mem_keys_iff]
  simp only [covered_eq_some_iff, exists_and_left]
  exact and_comm

/-- The inventory names the files that are covered. -/
theorem mem_inventory_iff : name ∈ b.inventory directory ↔
    ∃ path contents, b.covered directory path = some contents ∧ text path = name := by
  rw [inventory, List.mem_toFinset, List.mem_map]
  simp only [mem_filter_included, exists_and_right]

/-- The digests are those of the files that are covered. -/
theorem mem_digests_iff : (name, value) ∈ b.digests lib directory ↔
    ∃ path contents, b.covered directory path = some contents ∧
      text path = name ∧ value = .str (lib.sha256 contents) := by
  have hperm := (List.perm_insertionSort (· ≤ ·) b.files.keys).filter (included directory)
  rw [digests, List.mem_map]
  simp only [hperm.mem_iff, mem_filter_included, Prod.mk.injEq]
  constructor
  · rintro ⟨path, ⟨contents, hcovered⟩, rfl, rfl⟩
    rw [(covered_eq_some_iff.mp hcovered).2]
    exact ⟨path, contents, hcovered, rfl, rfl⟩
  · rintro ⟨path, contents, hcovered, rfl, rfl⟩
    rw [← Option.getD_some (a := contents) (b := []), ← (covered_eq_some_iff.mp hcovered).2]
    exact ⟨path, ⟨contents, hcovered⟩, rfl, rfl⟩

/-- The recorded names are those of the inventory. -/
theorem keys_digests : ((b.digests lib directory).map Prod.fst).toFinset = b.inventory directory := by
  ext name
  rw [List.mem_toFinset, List.mem_map, mem_inventory_iff]
  constructor
  · rintro ⟨⟨_, value⟩, hmem, rfl⟩
    obtain ⟨path, contents, hcovered, htext, -⟩ := mem_digests_iff.mp hmem
    exact ⟨path, contents, hcovered, htext⟩
  · rintro ⟨path, contents, hcovered, htext⟩
    exact ⟨_, mem_digests_iff.mpr ⟨path, contents, hcovered, htext, rfl⟩, rfl⟩

/-- A file that is there is checked by its digest. -/
theorem checkFile_text {digest : String} (hvalid : Valid path) (hread : b.read path = some contents) :
    b.checkFile lib (text path) (.str digest) = if lib.sha256 contents = digest then .ok ()
      else .error (.valueError ("bundle hash/path mismatch: " ++ text path)) := by
  have hup : ".." ∉ path := fun hmem => (hvalid.names _ hmem).ne_dots rfl
  rw [checkFile, parts_text hvalid, isAbsolute_text hvalid, if_neg (by simp [hup]), readBytes, hread]
  simp [bind, Except.bind]

/-- A path with the same text is covered alike. -/
theorem covered_eq_of_text (h : b.covered directory path = some contents) (hvalid : Valid path')
    (htext : text path = text path') : b.covered directory path' = some contents :=
  (text_inj (valid_of_covered h) hvalid).mp htext ▸ h

/-- The check of a recorded file, when the names recorded are those of the inventory: it goes through
if the file has the recorded digest. -/
theorem checkFile_of_mem_digests
    (hinventory : b.inventory resolved = recorded.inventory directory)
    (hmem : (name, value) ∈ recorded.digests lib directory) :
    ∃ path contents contents', recorded.covered directory path = some contents ∧
      b.covered resolved path = some contents' ∧ text path = name ∧
      b.checkFile lib name value = if lib.sha256 contents' = lib.sha256 contents then .ok ()
        else .error (.valueError ("bundle hash/path mismatch: " ++ name)) := by
  obtain ⟨path, contents, hcovered, rfl, rfl⟩ := mem_digests_iff.mp hmem
  have hname : text path ∈ b.inventory resolved :=
    hinventory ▸ mem_inventory_iff.mpr ⟨path, contents, hcovered, rfl⟩
  obtain ⟨path', contents', hcovered', htext⟩ := mem_inventory_iff.mp hname
  have hvalid := valid_of_covered hcovered
  have hcovered' := covered_eq_of_text hcovered' hvalid htext
  exact ⟨path, contents, contents', hcovered, hcovered', rfl,
    checkFile_text hvalid (covered_eq_some_iff.mp hcovered').2⟩

/-! ## The comparison -/

/-- Bundles that cover the same have the same inventory. -/
theorem inventory_eq_of_covered_eq (h : b.covered resolved = recorded.covered directory) :
    b.inventory resolved = recorded.inventory directory := by
  ext name
  rw [mem_inventory_iff, mem_inventory_iff, h]

/-- If the same is covered, every check goes through. -/
theorem checkFile_of_covered_eq (h : b.covered resolved = recorded.covered directory)
    (hmem : (name, value) ∈ recorded.digests lib directory) :
    b.checkFile lib name value = .ok () := by
  obtain ⟨path, contents, contents', hcovered, hcovered', -, hcheck⟩ :=
    checkFile_of_mem_digests (inventory_eq_of_covered_eq h) hmem
  obtain rfl : contents' = contents := by
    rw [h, hcovered] at hcovered'
    exact (Option.some.inj hcovered').symm
  rw [hcheck, if_pos rfl]

/-- If the names are the same and every check goes through, the same is covered. -/
theorem covered_eq_of_checkFile (hsha : Function.Injective lib.sha256)
    (hinventory : b.inventory resolved = recorded.inventory directory)
    (hall : ∀ entry ∈ recorded.digests lib directory, b.checkFile lib entry.1 entry.2 = .ok ()) :
    b.covered resolved = recorded.covered directory := by
  funext path
  cases hrecorded : recorded.covered directory path with
  | some contents =>
    have hmem : (text path, .str (lib.sha256 contents)) ∈ recorded.digests lib directory :=
      mem_digests_iff.mpr ⟨path, contents, hrecorded, rfl, rfl⟩
    obtain ⟨path', contents', contents'', h', h'', htext, hcheck⟩ :=
      checkFile_of_mem_digests hinventory hmem
    obtain rfl := (text_inj (valid_of_covered h') (valid_of_covered hrecorded)).mp htext
    obtain rfl : contents = contents' := Option.some.inj (hrecorded.symm.trans h')
    have hok := hall _ hmem
    rw [hcheck] at hok
    split_ifs at hok with hsame
    rw [h'', hsha hsame]
  | none =>
    by_contra hne
    obtain ⟨contents, hcovered⟩ := Option.ne_none_iff_exists'.mp hne
    -- the name would be recorded
    have hname : text path ∈ recorded.inventory directory :=
      hinventory ▸ mem_inventory_iff.mpr ⟨path, contents, hcovered, rfl⟩
    obtain ⟨path', contents', hcovered', htext⟩ := mem_inventory_iff.mp hname
    rw [covered_eq_of_text hcovered' (valid_of_covered hcovered) htext] at hrecorded
    cases hrecorded

/-- The version of the record. -/
theorem get?_index_version : (b.index lib directory).get? "schema_version" = some (.int 1) := by
  rw [index, Json.get?, lookup, if_pos rfl]

/-- The digests of the record. -/
theorem get?_index_sha256 :
    (b.index lib directory).get? "sha256" = some (.dict (b.digests lib directory)) := by
  rw [index, Json.get?, lookup, if_neg (by decide), lookup, if_pos rfl]

/-- On a bundle with the index of `recorded`, the two are compared. -/
theorem verifyFiles_eq {bytes : List UInt8} (hread : b.read indexPath = some bytes)
    (hload : lib.loads bytes = .ok (recorded.index lib directory)) :
    b.verifyFiles lib resolved =
      if b.inventory resolved ≠ recorded.inventory directory then
        .error (.valueError "bundle file inventory differs")
      else do
        (recorded.digests lib directory).forM fun entry => b.checkFile lib entry.1 entry.2
        return recorded.digests lib directory := by
  have hdict : (recorded.index lib directory).isDict = true := rfl
  have hversion : (Json.int 1).eq (.int 1) = true := by simp
  rw [verifyFiles, readBytes, hread]
  simp only [bind, Except.bind, hload]
  rw [if_neg (by rw [hdict]; simp), get?_index_version, Option.getD_some,
    if_neg (by rw [hversion]; simp), get?_index_sha256]
  simp only [keys_digests]

/-- Verifying compares what is covered with what was covered when the index was made. -/
theorem verifyFiles_of_digests (hsha : Function.Injective lib.sha256) {bytes : List UInt8}
    (hread : b.read indexPath = some bytes)
    (hload : lib.loads bytes = .ok (recorded.index lib directory)) :
    (b.covered resolved = recorded.covered directory →
      b.verifyFiles lib resolved = .ok (recorded.digests lib directory)) ∧
    (b.covered resolved ≠ recorded.covered directory →
      ∃ text, b.verifyFiles lib resolved = .error (.valueError text)) := by
  rw [verifyFiles_eq hread hload]
  constructor
  · intro hsame
    rw [if_neg (not_not.mpr (inventory_eq_of_covered_eq hsame)),
      forM_eq_ok fun entry hentry => checkFile_of_covered_eq hsame hentry]
    rfl
  · intro hdiffers
    by_cases hinventory : b.inventory resolved = recorded.inventory directory
    · rw [if_neg (not_not.mpr hinventory)]
      have hchecks : ∀ entry ∈ recorded.digests lib directory,
          b.checkFile lib entry.1 entry.2 = .ok () ∨ ∃ exc, (∃ text, exc = Exc.valueError text) ∧
            b.checkFile lib entry.1 entry.2 = .error exc := by
        intro entry hentry
        obtain ⟨_, _, _, -, -, -, hcheck⟩ := checkFile_of_mem_digests hinventory hentry
        rw [hcheck]
        split_ifs
        · exact .inl rfl
        · exact .inr ⟨_, ⟨_, rfl⟩, rfl⟩
      rcases forM_cases hchecks with ⟨hall, -⟩ | ⟨-, ⟨text, rfl⟩, hraised⟩
      · exact absurd (covered_eq_of_checkFile hsha hinventory hall) hdiffers
      · rw [hraised]
        exact ⟨text, rfl⟩
    · rw [if_pos hinventory]
      exact ⟨_, rfl⟩

/-! ## Sealing -/

variable {sealed changed : Bundle}

/-- Writing a file changes that file only. -/
theorem read_write (b : Bundle) (path : List String) (contents : List UInt8) (hvalid : Valid path)
    (hfree : ∀ path' ∈ b.files.keys, path <+: path' ∨ path' <+: path → path = path')
    (path' : List String) : (b.write path contents hvalid hfree).read path' =
      if path' = path then some contents else b.read path' := by
  split_ifs with hpath
  · subst hpath
    exact AList.lookup_insert _
  · exact AList.lookup_insert_ne hpath

/-- Sealing writes the index, and nothing else. -/
theorem read_of_seal (h : b.seal lib directory = .ok sealed) (path : List String) :
    sealed.read path =
      if path = indexPath then some (lib.dumps (b.index lib directory)) else b.read path := by
  unfold Bundle.seal at h
  split_ifs at h with hdirectory
  cases h
  exact read_write ..

/-- The index is not covered itself. -/
theorem covered_of_seal (h : b.seal lib directory = .ok sealed) :
    sealed.covered resolved = b.covered resolved := by
  funext path
  rw [covered, covered, read_of_seal h]
  by_cases hpath : path = indexPath
  · subst hpath
    simp [included, indexPath]
  · rw [if_neg hpath]

/-- Two directories cover the same if they include the same of the files that there are. -/
theorem covered_eq_iff : b.covered resolved = b.covered directory ↔
    ∀ path ∈ b.files.keys, included directory path = included resolved path := by
  rw [funext_iff]
  refine forall_congr' fun path => ?_
  rw [covered, covered, mem_keys_iff]
  cases b.read path <;> cases included directory path <;> cases included resolved path <;> simp

/-- Two bundles cover different things if a file that is included differs. -/
theorem covered_ne_iff : b.covered directory ≠ recorded.covered directory ↔
    ∃ path, included directory path = true ∧ b.read path ≠ recorded.read path := by
  rw [Function.ne_iff]
  refine exists_congr fun path => ?_
  rw [covered, covered]
  cases included directory path <;> simp

/-- The bundle was changed after it was sealed: a regular file was added, deleted or modified that is
neither the index nor inside a `__pycache__` directory. -/
def Changed (sealed changed : Bundle) : Prop :=
  changed.read indexPath = sealed.read indexPath ∧
    ∃ path, path ≠ indexPath ∧ "__pycache__" ∉ path.dropLast ∧ changed.read path ≠ sealed.read path

/-- When sealing detects a change. The hash is injective, and the index is read back as it was saved.
The sealed bundle is accepted, and refused with a `ValueError` once it is changed, if and only if the
condition on the files holds alike under the two spellings of the directory, and a file was changed
that meets it. -/
theorem verifyFiles_detects_iff {lib : Library} {directory resolved : List String}
    {b sealed changed : Bundle} (hsha : Function.Injective lib.sha256)
    (hloads : lib.loads (lib.dumps (b.index lib directory)) = .ok (b.index lib directory))
    (hseal : b.seal lib directory = .ok sealed) :
    ((∃ files, sealed.verifyFiles lib resolved = .ok files) ∧
      (Changed sealed changed → ∃ text, changed.verifyFiles lib resolved = .error (.valueError text))) ↔
    (∀ path ∈ b.files.keys, included directory path = included resolved path) ∧
      (Changed sealed changed →
        ∃ path, included resolved path = true ∧ changed.read path ≠ sealed.read path) := by
  have hindex : sealed.read indexPath = some (lib.dumps (b.index lib directory)) := by
    rw [read_of_seal hseal, if_pos rfl]
  have haccepts : (∃ files, sealed.verifyFiles lib resolved = .ok files) ↔
      b.covered resolved = b.covered directory := by
    obtain ⟨hsame, hdiffers⟩ := verifyFiles_of_digests hsha hindex hloads
    rw [covered_of_seal hseal] at hsame hdiffers
    refine ⟨fun ⟨files, hfiles⟩ => ?_, fun h => ⟨_, hsame h⟩⟩
    by_contra hne
    obtain ⟨text, htext⟩ := hdiffers hne
    rw [hfiles] at htext
    cases htext
  rw [haccepts, ← covered_eq_iff]
  refine and_congr_right fun hspellings => imp_congr_right fun hchanged => ?_
  -- the index is still there, so the changed bundle is compared with the sealed one
  obtain ⟨hsame, hdiffers⟩ := verifyFiles_of_digests hsha (hchanged.1.trans hindex) hloads
  rw [← hspellings, ← covered_of_seal hseal] at hsame hdiffers
  rw [← covered_ne_iff]
  refine ⟨fun ⟨text, htext⟩ heq => ?_, hdiffers⟩
  rw [hsame heq] at htext
  cases htext

/-! ## A nested index -/

/-- `{}` on a line. -/
def emptyObject : List UInt8 := [0x7b, 0x7d, 0x0a]

/-- `[]` on a line. -/
def emptyList : List UInt8 := [0x5b, 0x5d, 0x0a]

/-- What `seal` saves for a bundle with nothing but an empty object for a manifest. -/
def sampleIndex : Json :=
  .dict [("schema_version", .int 1), ("sha256", .dict [("manifest.json",
    .str "ca3d163bab055381827226140568f3bef7eaac187cebd76878e0b63e9e442356")])]

/-- `sampleIndex`, as it is saved. -/
def sampleText : List UInt8 :=
  ("\x7b\n  \"schema_version\": 1,\n  \"sha256\": \x7b\n    \"manifest.json\": " ++
    "\"ca3d163bab055381827226140568f3bef7eaac187cebd76878e0b63e9e442356\"\n  \x7d\n\x7d\n"
    ).toUTF8.data.toList

/-- The library, as far as these files and their index go. -/
def sampleLibrary : Library where
  sha256 contents :=
    if contents = emptyObject then
      "ca3d163bab055381827226140568f3bef7eaac187cebd76878e0b63e9e442356"
    else if contents = emptyList then
      "37517e5f3dc66819f61f5a7bb8ace1921282415f10551d2defa5c3eb0985b570"
    else "of " ++ hex contents
  dumps _ := sampleText
  loads text := if text = sampleText then .ok sampleIndex else .error (.valueError "Expecting value")

/-- The digests of the example tell contents apart. -/
theorem sampleLibrary_injective : Function.Injective sampleLibrary.sha256 := by
  have hhead (contents : List UInt8) : ("of " ++ hex contents).toList.head? = some 'o' := by
    rw [String.toList_append]
    rfl
  have hne {digest : String} (h : digest.toList.head? ≠ some 'o') (contents : List UInt8) :
      "of " ++ hex contents ≠ digest := fun heq => h (heq ▸ hhead contents)
  -- the digests are told apart by their first letter, and the others are read back
  refine Function.LeftInverse.injective (g := fun digest =>
    if digest = sampleLibrary.sha256 emptyObject then emptyObject
    else if digest = sampleLibrary.sha256 emptyList then emptyList
    else (fromHexChars (digest.toList.drop 3)).getD []) fun contents => ?_
  by_cases hobject : contents = emptyObject
  · subst hobject
    exact if_pos rfl
  by_cases hlist : contents = emptyList
  · subst hlist
    exact (if_neg (by decide)).trans (if_pos rfl)
  have hsha : sampleLibrary.sha256 contents = "of " ++ hex contents :=
    (if_neg hobject).trans (if_neg hlist)
  have hread : fromHexChars (hex contents).toList = some contents := fromHex_hex contents
  dsimp only
  rw [hsha, if_neg (hne (by decide) contents), if_neg (hne (by decide) contents),
    String.toList_append]
  simp [hread]

/-- A bundle with an empty object for a manifest. -/
def sample : Bundle where
  files := AList.singleton ["manifest.json"] emptyObject
  valid := by decide
  tree := by decide

/-- The example, sealed. -/
def sampleSealed : Bundle := sample.write indexPath sampleText (by decide) (by decide)

/-- The example can be sealed. -/
theorem seal_sample : sample.seal sampleLibrary ["study"] = .ok sampleSealed := rfl

/-- The record of the example is read back. -/
theorem loads_index_sample : sampleLibrary.loads (sampleLibrary.dumps
    (sample.index sampleLibrary ["study"])) = .ok (sample.index sampleLibrary ["study"]) := by
  have hindex : sample.index sampleLibrary ["study"] = sampleIndex := rfl
  rw [hindex]
  simp [sampleLibrary]

/-- The sealed bundle, with another manifest. -/
def sampleModified : Bundle := sampleSealed.write ["manifest.json"] emptyList (by decide) (by decide)

/-- A change of the example that is noticed. -/
theorem verifyFiles_detects_iff_sample :
    ((∃ files, sampleSealed.verifyFiles sampleLibrary ["/", "root", "study"] = .ok files) ∧
      (Changed sampleSealed sampleModified → ∃ text,
        sampleModified.verifyFiles sampleLibrary ["/", "root", "study"] = .error (.valueError text))) ↔
    (∀ path ∈ sample.files.keys,
      included ["study"] path = included ["/", "root", "study"] path) ∧
      (Changed sampleSealed sampleModified → ∃ path,
        included ["/", "root", "study"] path = true ∧ sampleModified.read path ≠ sampleSealed.read path) :=
  verifyFiles_detects_iff sampleLibrary_injective loads_index_sample seal_sample

/-- The sealed bundle, with another file that is named like the index. -/
def sampleNested : Bundle :=
  sampleSealed.write ["source", "integrity.json"] emptyObject (by decide) (by decide)

/-- A file that is named like the index is added to a sealed bundle, and the bundle is accepted. -/
theorem verifyFiles_misses_nested :
    Function.Injective sampleLibrary.sha256 ∧
      sampleLibrary.loads (sampleLibrary.dumps (sample.index sampleLibrary ["study"])) =
        .ok (sample.index sampleLibrary ["study"]) ∧
      sample.seal sampleLibrary ["study"] = .ok sampleSealed ∧
      Changed sampleSealed sampleNested ∧
      ∃ files, sampleNested.verifyFiles sampleLibrary ["/", "root", "study"] = .ok files := by
  have hread := read_write sampleSealed ["source", "integrity.json"] emptyObject
    (by decide) (by decide)
  have hnested : sampleNested.covered ["/", "root", "study"] = sample.covered ["study"] := by
    rw [← covered_eq_iff.mpr (show ∀ path ∈ sample.files.keys, included ["study"] path =
      included ["/", "root", "study"] path by decide), ← covered_of_seal seal_sample]
    by_contra hne
    obtain ⟨path, hincluded, hdiffers⟩ := covered_ne_iff.mp hne
    -- the file that was added is not covered
    rw [sampleNested, hread] at hdiffers
    split_ifs at hdiffers with hpath
    · subst hpath
      exact absurd hincluded (by decide)
    · exact hdiffers rfl
  have hindex : sampleNested.read indexPath = sampleSealed.read indexPath :=
    (hread _).trans (if_neg (by decide))
  have hnew : sampleNested.read ["source", "integrity.json"] = some emptyObject :=
    (hread _).trans (if_pos rfl)
  refine ⟨sampleLibrary_injective, loads_index_sample, seal_sample,
    ⟨hindex, ["source", "integrity.json"], by decide, by decide, ?_⟩, _,
    (verifyFiles_of_digests sampleLibrary_injective ?_ loads_index_sample).1 hnested⟩
  · rw [hnew]
    decide
  · rw [hindex, read_of_seal seal_sample, if_pos rfl]

end Bundle

end Lab.Research
