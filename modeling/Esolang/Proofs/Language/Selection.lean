import Mathlib.Data.List.Basic
import Mathlib.Data.List.Nodup
import Mathlib.Data.List.TakeWhile
import Esolang.Language.Basic
import Esolang.Proofs.Text.Lines

/-! The choice of a language for a file. A path has at most one file name, and a file name at most one
extension; a table of languages then has one entry for it, or none, or too many. -/

namespace Esolang

/-- What may stand behind the last name of a path: separators, each with a dot behind it or none. -/
inductive Trailing : List Char → Prop where
  | nil : Trailing []
  | slash {rest : List Char} (h : Trailing rest) : Trailing ('/' :: rest)
  | dot {rest : List Char} (h : Trailing rest) : Trailing ('/' :: '.' :: rest)

/-- A name for what a path leads to, unless it is the place itself or its parent. -/
structure ProperName (name : List Char) : Prop where
  separator : '/' ∉ name
  empty : name ≠ []
  here : name ≠ ['.']
  parent : name ≠ ['.', '.']

/-- The last name in a path. The directories in front of it end with a separator. -/
def IsFileName (path name : List Char) : Prop :=
  ∃ front rest, path = front ++ name ++ rest ∧ (front = [] ∨ ∃ above, front = above ++ ['/']) ∧
    Trailing rest ∧ ProperName name

/-- What stands behind the last dot of a name, if anything stands in front of this dot. -/
def IsExtension (name extension : List Char) : Prop :=
  ∃ stem, name = stem ++ '.' :: extension ∧ stem ≠ [] ∧ '.' ∉ extension

/-- The extension of a file with its dot; it is empty if there is no file name, or if the name has no
extension. -/
inductive HasExtension (file : String) : String → Prop where
  | some {name extension : List Char} (hname : IsFileName file.toList name)
    (hext : IsExtension name extension) : HasExtension file (String.ofList ('.' :: extension))
  | none (h : ∀ name extension, IsFileName file.toList name → ¬ IsExtension name extension) :
    HasExtension file ""

/-- Pieces that name nothing. -/
def idle (part : List Char) : Bool := part = [] || part = ['.']

theorem idle_iff {part : List Char} : idle part = true ↔ part = [] ∨ part = ['.'] := by
  simp [idle]

theorem trailing_flatMap {parts : List (List Char)} (h : ∀ part ∈ parts, idle part = true) :
    Trailing (parts.flatMap ('/' :: ·)) := by
  induction parts with
  | nil => exact .nil
  | cons part parts ih =>
    obtain ⟨hpart, hparts⟩ := List.forall_mem_cons.mp h
    rw [List.flatMap_cons]
    rcases idle_iff.mp hpart with rfl | rfl
    · exact .slash (ih hparts)
    · exact .dot (ih hparts)

theorem Trailing.splitOn {rest : List Char} (h : Trailing rest) :
    ∃ parts : List (List Char), (∀ part ∈ parts, idle part = true) ∧
      ∀ name : List Char, '/' ∉ name → (name ++ rest).splitOn '/' = name :: parts := by
  induction h with
  | nil =>
    refine ⟨[], by simp, fun name hname => ?_⟩
    rw [List.append_nil]
    exact List.splitOn_eq_singleton hname
  | slash _ ih =>
    obtain ⟨parts, hparts, hsplit⟩ := ih
    refine ⟨[] :: parts, by simpa [idle] using hparts, fun name hname => ?_⟩
    rw [List.splitOn_append_cons_self_of_not_mem hname]
    exact congrArg (name :: ·) (hsplit [] (by simp))
  | dot _ ih =>
    obtain ⟨parts, hparts, hsplit⟩ := ih
    refine ⟨['.'] :: parts, by simpa [idle] using hparts, fun name hname => ?_⟩
    rw [List.splitOn_append_cons_self_of_not_mem hname]
    exact congrArg (name :: ·) (hsplit ['.'] (by decide))

theorem ends_with_separator (parts : List (List Char)) :
    parts.flatMap (· ++ ['/']) = [] ∨ ∃ above, parts.flatMap (· ++ ['/']) = above ++ ['/'] := by
  rcases List.eq_nil_or_concat parts with rfl | ⟨before, last, rfl⟩
  · exact .inl rfl
  · exact .inr ⟨before.flatMap (· ++ ['/']) ++ last, by simp⟩

/-- The last piece that does not satisfy a test, and the pieces on its sides. -/
theorem dropWhile_reverse_eq_cons_iff {p : List Char → Bool} {parts before : List (List Char)}
    {last : List Char} :
    parts.reverse.dropWhile p = last :: before ↔
      p last = false ∧ ∃ after, (∀ part ∈ after, p part = true) ∧
        parts = before.reverse ++ last :: after := by
  constructor
  · intro h
    have hlast := List.head?_dropWhile_not p parts.reverse
    have hsplit := List.takeWhile_append_dropWhile (p := p) (l := parts.reverse)
    rw [h] at hlast hsplit
    refine ⟨by simpa using hlast, (parts.reverse.takeWhile p).reverse, fun part hpart => ?_, ?_⟩
    · exact List.mem_takeWhile_imp (List.mem_reverse.mp hpart)
    · have hparts := congrArg List.reverse hsplit
      simpa using hparts.symm
  · rintro ⟨hlast, after, hafter, rfl⟩
    have hreverse : (before.reverse ++ last :: after).reverse = after.reverse ++ last :: before := by
      simp
    rw [hreverse, List.dropWhile_append_of_pos fun part hpart =>
      hafter part (List.mem_reverse.mp hpart), List.dropWhile_cons, hlast]
    rfl

theorem properName_iff {name : List Char} :
    ProperName name ↔ '/' ∉ name ∧ idle name = false ∧ name ≠ ['.', '.'] := by
  have hidle : idle name = false ↔ name ≠ [] ∧ name ≠ ['.'] := by
    rw [← Bool.not_eq_true, idle_iff, not_or]
  constructor
  · intro h
    exact ⟨h.separator, hidle.mpr ⟨h.empty, h.here⟩, h.parent⟩
  · rintro ⟨hseparator, hname, hparent⟩
    exact ⟨hseparator, (hidle.mp hname).1, (hidle.mp hname).2, hparent⟩

theorem fileName?_eq_some_iff_dropWhile {path name : List Char} :
    fileName? path = some name ↔ name ≠ ['.', '.'] ∧
      ∃ before, (path.splitOn '/').reverse.dropWhile idle = name :: before := by
  have hidle : (fun part : List Char => decide (part = []) || decide (part = ['.'])) = idle := rfl
  rw [fileName?, hidle]
  rcases (path.splitOn '/').reverse.dropWhile idle with _ | ⟨last, before⟩
  · simp
  · by_cases hlast : last = ['.', '.']
    · simp +contextual [hlast, eq_comm]
    · simp only [List.head?_cons, if_neg hlast]
      constructor
      · intro h
        obtain rfl := Option.some.inj h
        exact ⟨hlast, before, rfl⟩
      · rintro ⟨-, _, h⟩
        rw [(List.cons.inj h).1]

theorem fileName?_eq_some_iff {path name : List Char} :
    fileName? path = some name ↔ IsFileName path name := by
  rw [fileName?_eq_some_iff_dropWhile]
  constructor
  · rintro ⟨hparent, before, h⟩
    obtain ⟨hidle, after, hafter, hparts⟩ := dropWhile_reverse_eq_cons_iff.mp h
    have hpath : List.intercalate ['/'] (path.splitOn '/') = path := List.intercalate_splitOn '/'
    rw [hparts, intercalate_append_cons] at hpath
    have hmem : name ∈ path.splitOn '/' := by simp [hparts]
    exact ⟨_, _, hpath.symm, ends_with_separator before.reverse, trailing_flatMap hafter,
      properName_iff.mpr ⟨not_mem_of_mem_splitOn hmem, hidle, hparent⟩⟩
  · rintro ⟨front, rest, rfl, hfront, hrest, hname⟩
    obtain ⟨hseparator, hidle, hparent⟩ := properName_iff.mp hname
    obtain ⟨after, hafter, hsplit⟩ := hrest.splitOn
    have hlast := hsplit name hseparator
    refine ⟨hparent, ?_⟩
    rcases hfront with rfl | ⟨above, rfl⟩
    · refine ⟨[], dropWhile_reverse_eq_cons_iff.mpr ⟨hidle, after, hafter, ?_⟩⟩
      simpa using hlast
    · refine ⟨(above.splitOn '/').reverse,
        dropWhile_reverse_eq_cons_iff.mpr ⟨hidle, after, hafter, ?_⟩⟩
      have hpath : above ++ ['/'] ++ name ++ rest = above ++ '/' :: (name ++ rest) := by simp
      rw [hpath, List.splitOn_append_cons_self, hlast, List.reverse_reverse]

theorem extensionOf?_eq_some_iff_reverse {name extension : List Char} :
    extensionOf? name = some extension ↔
      ∃ before, (name.splitOn '.').reverse = extension :: before ∧ before ≠ [] ∧ before ≠ [[]] := by
  rw [extensionOf?]
  split
  · next h => simp [h]
  · next h => simp [h]
  · next h => simp [h]
  · next last before hone htwo h =>
    rw [h]
    constructor
    · intro hlast
      obtain rfl := Option.some.inj hlast
      refine ⟨before, rfl, ?_, ?_⟩
      · rintro rfl
        exact hone rfl
      · rintro rfl
        exact htwo rfl
    · rintro ⟨_, hlast, -⟩
      rw [(List.cons.inj hlast).1]

theorem extensionOf?_eq_some_iff {name extension : List Char} :
    extensionOf? name = some extension ↔ IsExtension name extension := by
  rw [extensionOf?_eq_some_iff_reverse]
  constructor
  · rintro ⟨before, hreverse, hne, hhidden⟩
    have hparts : name.splitOn '.' = before.reverse ++ [extension] := by
      simpa using congrArg List.reverse hreverse
    have hmem : extension ∈ name.splitOn '.' := by simp [hparts]
    have hname : List.intercalate ['.'] (name.splitOn '.') = name := List.intercalate_splitOn '.'
    rw [hparts, intercalate_append_cons] at hname
    obtain ⟨last, earlier, rfl⟩ := List.exists_cons_of_ne_nil hne
    refine ⟨earlier.reverse.flatMap (· ++ ['.']) ++ last, ?_, ?_, not_mem_of_mem_splitOn hmem⟩
    · rw [← hname]
      simp
    · intro hstem
      obtain ⟨hearlier, rfl⟩ := List.append_eq_nil_iff.mp hstem
      have hnone : earlier = [] := by
        cases earlier with
        | nil => rfl
        | cons part earlier => simp at hearlier
      exact hhidden (by rw [hnone])
  · rintro ⟨stem, rfl, hstem, hdot⟩
    refine ⟨(stem.splitOn '.').reverse, ?_, ?_, ?_⟩
    · rw [List.splitOn_append_cons_self, List.splitOn_eq_singleton hdot]
      simp
    · simp [List.splitOn_ne_nil]
    · intro hone
      have hparts : stem.splitOn '.' = [[]] := by simpa using congrArg List.reverse hone
      have hempty : List.intercalate ['.'] (stem.splitOn '.') = stem := List.intercalate_splitOn '.'
      rw [hparts] at hempty
      exact hstem hempty.symm

theorem hasExtension_iff {file extension : String} :
    HasExtension file extension ↔ dottedExtension file = extension := by
  have hsome : ∀ found, (fileName? file.toList).bind extensionOf? = some found ↔
      ∃ name, IsFileName file.toList name ∧ IsExtension name found := by
    intro found
    simp only [Option.bind_eq_some_iff, fileName?_eq_some_iff, extensionOf?_eq_some_iff]
  rcases hfound : (fileName? file.toList).bind extensionOf? with _ | found
  · have hnone : ∀ name found, IsFileName file.toList name → ¬ IsExtension name found := by
      intro name found hname hext
      have hsame := (hsome found).mpr ⟨name, hname, hext⟩
      rw [hfound] at hsame
      cases hsame
    have hdotted : dottedExtension file = "" := by rw [dottedExtension, hfound]
    rw [hdotted]
    constructor
    · rintro (⟨hname, hext⟩ | -)
      · exact absurd hext (hnone _ _ hname)
      · rfl
    · rintro rfl
      exact .none hnone
  · obtain ⟨name, hname, hext⟩ := (hsome found).mp hfound
    have hdotted : dottedExtension file = String.ofList ('.' :: found) := by
      rw [dottedExtension, hfound]
    rw [hdotted]
    constructor
    · rintro (⟨hname', hext'⟩ | hnone)
      · have hsame := (hsome _).mpr ⟨_, hname', hext'⟩
        rw [hfound] at hsame
        rw [Option.some.inj hsame]
      · exact absurd hext (hnone name found hname)
    · rintro rfl
      exact .some hname hext

/-- A file that is hidden has no extension by this, a name that ends with a dot has an empty one, and
separators behind a name do not count. -/
example : dottedExtension "a.b/.past" = "" ∧ dottedExtension "x.b/." = ".b" ∧
    dottedExtension "x." = "." := by
  decide +kernel

namespace Entry

variable {β : Type} {entries : List (Entry β)} {entry : Entry β} {language extension : String}

theorem findByName_eq_ok_iff : findByName entries language = .ok entry ↔
    ∃ before after, entries = before ++ entry :: after ∧ entry.language = language ∧
      ∀ other ∈ before, other.language ≠ language := by
  have hfind : findByName entries language = .ok entry ↔
      entries.find? (·.language = language) = some entry := by
    rw [findByName]
    cases entries.find? (·.language = language) <;> simp
  rw [hfind, List.find?_eq_some_iff_append]
  simp only [decide_eq_true_eq, Bool.not_eq_true', decide_eq_false_iff_not]
  constructor
  · rintro ⟨hname, before, after, hsplit, hbefore⟩
    exact ⟨before, after, hsplit, hname, hbefore⟩
  · rintro ⟨before, after, hsplit, hname, hbefore⟩
    exact ⟨hname, before, after, hsplit, hbefore⟩

theorem findByName_eq_error_iff {e : SelectionError} : findByName entries language = .error e ↔
    e = .unknownLanguage language ∧ ∀ entry ∈ entries, entry.language ≠ language := by
  have hnone : entries.find? (·.language = language) = none ↔
      ∀ entry ∈ entries, entry.language ≠ language := by
    simp [List.find?_eq_none]
  rw [← hnone, findByName]
  cases entries.find? (·.language = language) <;> simp [eq_comm]

/-- The names of the entries for an extension, in the order of the table. -/
def candidates (entries : List (Entry β)) (extension : String) : List String :=
  (entries.filter (·.extension = extension)).map (·.language)

theorem findByExtension_eq_ok_iff : findByExtension entries extension = .ok entry ↔
    ∃ before after, entries = before ++ entry :: after ∧ entry.extension = extension ∧
      ∀ other ∈ before ++ after, other.extension ≠ extension := by
  have honly : findByExtension entries extension = .ok entry ↔
      entries.filter (·.extension = extension) = [entry] := by
    rw [findByExtension]
    generalize entries.filter _ = found
    rcases found with _ | ⟨first, _ | ⟨second, others⟩⟩ <;> simp
  rw [honly, List.filter_eq_cons_iff]
  simp only [decide_eq_true_eq, List.filter_eq_nil_iff, List.mem_append]
  constructor
  · rintro ⟨before, after, hsplit, hbefore, hentry, hafter⟩
    exact ⟨before, after, hsplit, hentry, fun other h => h.elim (hbefore other) (hafter other)⟩
  · rintro ⟨before, after, hsplit, hentry, hothers⟩
    exact ⟨before, after, hsplit, fun other h => hothers other (.inl h), hentry,
      fun other h => hothers other (.inr h)⟩

theorem findByExtension_eq_error_iff {e : SelectionError} :
    findByExtension entries extension = .error e ↔
      e = .unknownExtension extension ∧ (∀ entry ∈ entries, entry.extension ≠ extension) ∨
      e = .ambiguousExtension extension (candidates entries extension) ∧
        2 ≤ (candidates entries extension).length := by
  have hnone : entries.filter (·.extension = extension) = [] ↔
      ∀ entry ∈ entries, entry.extension ≠ extension := by
    simp [List.filter_eq_nil_iff]
  rw [← hnone, findByExtension, candidates, List.length_map]
  generalize entries.filter _ = found
  rcases found with _ | ⟨first, _ | ⟨second, others⟩⟩
  · simp [eq_comm]
  · simp
  · simp [eq_comm]

/-- Where no extension is used twice, no extension is ambiguous. -/
theorem length_candidates_le_one (h : (entries.map (·.extension)).Nodup) (extension : String) :
    (candidates entries extension).length ≤ 1 := by
  have hcount : (entries.map (·.extension)).count extension ≤ 1 :=
    List.nodup_iff_count_le_one.mp h extension
  have hcandidates : (candidates entries extension).length =
      (entries.map (·.extension)).count extension := by
    rw [candidates, List.length_map, List.count, List.countP_map, List.countP_eq_length_filter]
    congr 2
  rwa [hcandidates]

/-- With a language, the first entry of that name is chosen, whatever the file. Without one, the
extension of the file decides: an entry is chosen if it is the only one for this extension. No file
name is ambiguous among the languages there are. -/
theorem languages_are_told_apart :
    (∀ (entries : List (Entry β)) (file language : String),
      (∀ entry, select entries file (some language) = .ok entry ↔
        ∃ before after, entries = before ++ entry :: after ∧ entry.language = language ∧
          ∀ other ∈ before, other.language ≠ language) ∧
      ∀ e, select entries file (some language) = .error e ↔
        e = .unknownLanguage language ∧ ∀ entry ∈ entries, entry.language ≠ language) ∧
    (∀ (entries : List (Entry β)) (file : String), ∃! extension, HasExtension file extension ∧
      (∀ entry, select entries file none = .ok entry ↔
        ∃ before after, entries = before ++ entry :: after ∧ entry.extension = extension ∧
          ∀ other ∈ before ++ after, other.extension ≠ extension) ∧
      ∀ e, select entries file none = .error e ↔
        e = .unknownExtension extension ∧ (∀ entry ∈ entries, entry.extension ≠ extension) ∨
        e = .ambiguousExtension extension (candidates entries extension) ∧
          2 ≤ (candidates entries extension).length) ∧
    ∀ (file : String) (language : Option String) (extension : String) (names : List String),
      select Language.entries file language ≠ .error (.ambiguousExtension extension names) := by
  refine ⟨fun entries file language => ⟨fun entry => ?_, fun e => ?_⟩, fun entries file => ?_,
    fun file language extension names h => ?_⟩
  · exact findByName_eq_ok_iff
  · exact findByName_eq_error_iff
  · refine ⟨dottedExtension file, ⟨hasExtension_iff.mpr rfl, fun entry => ?_, fun e => ?_⟩, ?_⟩
    · exact findByExtension_eq_ok_iff
    · exact findByExtension_eq_error_iff
    · rintro extension ⟨h, -⟩
      exact (hasExtension_iff.mp h).symm
  · cases language with
    | some language =>
      obtain ⟨hcause, -⟩ := findByName_eq_error_iff.mp h
      cases hcause
    | none =>
      have hunique := length_candidates_le_one
        (show (Language.entries.map (·.extension)).Nodup by decide) (dottedExtension file)
      rcases findByExtension_eq_error_iff.mp h with ⟨hcause, -⟩ | ⟨-, hmany⟩
      · cases hcause
      · omega

end Entry

end Esolang
