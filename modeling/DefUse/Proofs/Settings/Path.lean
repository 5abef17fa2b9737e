/-
# `Proofs.Settings.Path` — what an extension means

A path is a row of parts with slashes between them.  The last part that is neither empty nor
a single dot is the name of the file, unless it is two dots (`EndsIn`), and the extension is
what follows the last dot of the name, unless nothing stands before that dot
(`HasExtension`).  Eight extensions mean a dialect, in any letters (`Means`).

`Path.dialect?` finds the dialect that is meant, and finds none if none is meant
(`dialect?_eq_some_iff`, `dialect?_eq_none_iff`).
-/
import Mathlib.Data.List.TakeDrop
import DefUse.Proofs.Text.Cut
import DefUse.Proofs.Text.Lowercase
import DefUse.Settings.Path

namespace DefUse.Path

/-- The path ends in the name of a file: what comes after it are slashes and single dots, and it is
not two dots, which lead upwards. -/
def EndsIn (path name : String) : Prop :=
  ∃ front back : List String, path = "/".intercalate (front ++ name :: back) ∧
    (∀ part ∈ front ++ name :: back, '/' ∉ part.toList) ∧ name ∉ ["", ".", ".."] ∧
    ∀ part ∈ back, part ∈ ["", "."]

/-- The file has the extension: it comes after the last dot of the name, which is not the first
character. -/
def HasExtension (path extension : String) : Prop :=
  ∃ stem, EndsIn path (stem ++ "." ++ extension) ∧ stem ≠ "" ∧ '.' ∉ extension.toList

/-- The extensions of a dialect, in small letters. -/
def extensions : Dialect → List String
  | .typescript => ["ts", "tsx", "mts", "cts"]
  | .javascript => ["js", "jsx", "mjs", "cjs"]

/-- The extension of the file is one of the dialect, in any letters. -/
def Means (path : String) (dialect : Dialect) : Prop :=
  ∃ extension, HasExtension path extension ∧
    ∃ known ∈ extensions dialect, Text.InAnyCase extension known

variable {path name extension : String} {dialect dialect' : Dialect}

/-! ## The name of the file -/

theorem notMem_of_mem_splitOn {chars part : List Char} (h : part ∈ chars.splitOn '/') :
    '/' ∉ part := by
  induction chars generalizing part with
  | nil =>
      rw [List.splitOn_nil, List.mem_singleton] at h
      simp [h]
  | cons c rest ih =>
      rw [List.splitOn_cons_eq_if_modifyHead] at h
      obtain ⟨first, others, hsplit⟩ := List.exists_cons_of_ne_nil (List.splitOn_ne_nil '/' rest)
      rw [hsplit] at h ih
      split at h
      · rcases List.mem_cons.mp h with rfl | h
        · simp
        · exact ih h
      · rename_i hc
        rcases List.mem_cons.mp h with rfl | h
        · have hfirst := ih (List.mem_cons_self ..)
          have hne : c ≠ '/' := by simpa using hc
          simp [hfirst, hne.symm]
        · exact ih (List.mem_cons_of_mem _ h)

/-- Parts without slashes are those of the path that they make with slashes between them. -/
theorem splitOn_eq_iff {all : List String} (h : all ≠ []) :
    (path.toList.splitOn '/').map String.ofList = all ↔
      path = "/".intercalate all ∧ ∀ part ∈ all, '/' ∉ part.toList := by
  have hjoin : path = "/".intercalate all ↔
      path.toList = ['/'].intercalate (all.map String.toList) := by
    rw [← String.toList_inj, String.toList_intercalate]
    rfl
  rw [hjoin]
  constructor
  · rintro rfl
    have hparts : ((path.toList.splitOn '/').map String.ofList).map String.toList =
        path.toList.splitOn '/' := by simp [Function.comp_def]
    refine ⟨?_, ?_⟩
    · rw [hparts, List.intercalate_splitOn]
    · intro part hpart
      have hmem : part.toList ∈ path.toList.splitOn '/' := hparts ▸ List.mem_map_of_mem hpart
      exact notMem_of_mem_splitOn hmem
  · rintro ⟨hpath, hslash⟩
    rw [hpath, List.splitOn_intercalate]
    · simp [Function.comp_def]
    · simpa using hslash
    · simpa using h

theorem getLast?_parts_eq_some_iff : (parts path).getLast? = some name ↔
    ∃ front back : List String, path = "/".intercalate (front ++ name :: back) ∧
      (∀ part ∈ front ++ name :: back, '/' ∉ part.toList) ∧ name ∉ ["", "."] ∧
      ∀ part ∈ back, part ∈ ["", "."] := by
  have hcounts : ∀ part : String, (decide (part ≠ "") && decide (part ≠ ".")) = true ↔
      part ∉ ["", "."] := by simp
  have hdrops : ∀ part : String, (!(decide (part ≠ "") && decide (part ≠ "."))) = true ↔
      part ∈ ["", "."] := by simp [Classical.or_iff_not_imp_left]
  rw [parts, List.getLast?_filter, List.find?_eq_some_iff_append, hcounts]
  constructor
  · rintro ⟨hname, back, front, hall, hback⟩
    rw [List.reverse_eq_iff, List.reverse_append, List.reverse_cons, List.append_assoc,
      List.singleton_append, splitOn_eq_iff (by simp)] at hall
    refine ⟨front.reverse, back.reverse, hall.1, hall.2, hname, ?_⟩
    intro part hpart
    exact (hdrops part).mp (hback part (List.mem_reverse.mp hpart))
  · rintro ⟨front, back, hpath, hslash, hname, hback⟩
    refine ⟨hname, back.reverse, front.reverse, ?_, ?_⟩
    · rw [(splitOn_eq_iff (by simp)).mpr ⟨hpath, hslash⟩]
      simp
    · intro part hpart
      exact (hdrops part).mpr (hback part (List.mem_reverse.mp hpart))

theorem fileName?_eq_some_iff : fileName? path = some name ↔ EndsIn path name := by
  have hname : fileName? path = some name ↔ (parts path).getLast? = some name ∧ name ≠ ".." := by
    rw [fileName?]
    split
    · rename_i hup
      rw [hup]
      simp [eq_comm]
    · rename_i hup
      constructor
      · intro h
        refine ⟨h, ?_⟩
        rintro rfl
        exact hup h
      · exact And.left
  rw [hname, getLast?_parts_eq_some_iff, EndsIn]
  constructor
  · rintro ⟨⟨front, back, hpath, hslash, hcounts, hback⟩, hup⟩
    exact ⟨front, back, hpath, hslash, by simp_all, hback⟩
  · rintro ⟨front, back, hpath, hslash, hcounts, hback⟩
    exact ⟨⟨front, back, hpath, hslash, by simp_all, hback⟩, by simp_all⟩

/-! ## The extension -/

/-- `after` comes after the last dot, and `stem` before it, from the back. -/
theorem extensionOf?_of_reverse_eq {chars after stem : List Char}
    (h : chars.reverse = after ++ '.' :: stem) (hafter : '.' ∉ after) :
    extensionOf? chars = if stem = [] then none else some after.reverse := by
  rw [extensionOf?, List.span_eq_takeWhile_dropWhile, h, Text.takeWhile_ne_append hafter,
    Text.dropWhile_ne_append hafter]
  cases stem <;> simp

theorem extensionOf?_of_notMem {chars : List Char} (h : '.' ∉ chars) :
    extensionOf? chars = none := by
  rw [← List.mem_reverse, ← Text.dropWhile_ne_eq_nil_iff] at h
  rw [extensionOf?, List.span_eq_takeWhile_dropWhile, h]

theorem extensionOf?_eq_some_iff {chars found : List Char} :
    extensionOf? chars = some found ↔
      ∃ stem, chars = stem ++ '.' :: found ∧ stem ≠ [] ∧ '.' ∉ found := by
  constructor
  · intro h
    by_cases hdot : '.' ∈ chars
    · obtain ⟨after, stem, hcut, hafter⟩ :=
        List.eq_append_cons_of_mem (List.mem_reverse.mpr hdot)
      rw [extensionOf?_of_reverse_eq hcut hafter] at h
      split at h
      · cases h
      · cases h
        refine ⟨stem.reverse, ?_, by simpa, by simpa⟩
        rw [← List.reverse_inj, hcut]
        simp
    · rw [extensionOf?_of_notMem hdot] at h
      cases h
  · rintro ⟨stem, rfl, hstem, hfound⟩
    have hcut : (stem ++ '.' :: found).reverse = found.reverse ++ '.' :: stem.reverse := by simp
    rw [extensionOf?_of_reverse_eq hcut (by simpa)]
    simpa using hstem

theorem extension?_eq_some_iff :
    extension? path = some extension ↔ HasExtension path extension := by
  have hextension : extension? path = some extension ↔ ∃ name, fileName? path = some name ∧
      extensionOf? name.toList = some extension.toList := by
    rw [extension?]
    simp only [Option.bind_eq_bind, Option.bind_eq_some_iff, Option.pure_def, Option.some.injEq]
    refine exists_congr fun name => and_congr_right fun _ => ?_
    constructor
    · rintro ⟨found, hfound, rfl⟩
      rwa [String.toList_ofList]
    · intro hfound
      exact ⟨_, hfound, String.ofList_toList⟩
  rw [hextension]
  constructor
  · rintro ⟨name, hname, hfound⟩
    obtain ⟨stem, hchars, hstem, hdot⟩ := extensionOf?_eq_some_iff.mp hfound
    have hwhole : name = String.ofList stem ++ "." ++ extension := by
      apply String.toList_inj.mp
      simpa using hchars
    rw [hwhole] at hname
    exact ⟨_, fileName?_eq_some_iff.mp hname, by simpa using hstem, hdot⟩
  · rintro ⟨stem, hname, hstem, hdot⟩
    have hchars : stem.toList ≠ [] := mt String.toList_eq_nil_iff.mp hstem
    exact ⟨_, fileName?_eq_some_iff.mpr hname,
      extensionOf?_eq_some_iff.mpr ⟨stem.toList, by simp, hchars, hdot⟩⟩

/-! ## The dialect -/

theorem dialect?_of_extension? (hextension : extension? path = some extension) :
    dialect? path = some dialect ↔ Text.lowercase extension ∈ extensions dialect := by
  rw [dialect?, hextension]
  simp only [Option.bind_eq_bind, Option.bind_some]
  generalize Text.lowercase extension = small
  constructor
  · intro h
    split at h <;> cases h <;> decide
  · intro h
    cases dialect <;> simp only [extensions, List.mem_cons, List.not_mem_nil, or_false] at h
    · rcases h with rfl | rfl | rfl | rfl <;> rfl
    · rcases h with rfl | rfl | rfl | rfl <;> rfl

theorem dialect?_eq_some_iff : dialect? path = some dialect ↔ Means path dialect := by
  have hplain : ∀ known ∈ extensions dialect, Text.IsPlainWord known := by
    cases dialect <;> decide
  constructor
  · intro h
    obtain ⟨extension, hextension, -⟩ := Option.bind_eq_some_iff.mp h
    exact ⟨extension, extension?_eq_some_iff.mp hextension,
      (Text.lowercase_mem_iff hplain).mp ((dialect?_of_extension? hextension).mp h)⟩
  · rintro ⟨extension, hextension, hknown⟩
    exact (dialect?_of_extension? (extension?_eq_some_iff.mpr hextension)).mpr
      ((Text.lowercase_mem_iff hplain).mpr hknown)

theorem Means.unique (h : Means path dialect) (h' : Means path dialect') : dialect = dialect' :=
  Option.some.inj ((dialect?_eq_some_iff.mpr h).symm.trans (dialect?_eq_some_iff.mpr h'))

theorem dialect?_eq_none_iff : dialect? path = none ↔ ∀ dialect, ¬ Means path dialect := by
  simp only [← dialect?_eq_some_iff]
  cases dialect? path with
  | none => exact iff_of_true rfl nofun
  | some dialect => exact iff_of_false nofun fun h => h dialect rfl

end DefUse.Path
