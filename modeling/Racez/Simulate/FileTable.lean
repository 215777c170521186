import Mathlib.Data.Int.Notation
import Mathlib.Data.List.Basic
import Racez.Transition.Run

/-!
# The file table

Location directives name a source file by a number, and the file directives of the unit say which
file that is. `BuildFileTable` collects them into a vector, of which the pass uses the entry with
number one as the source file of every function.

A directive with number zero is appended, at a place that depends on the directives before it. A
directive with another number goes to its own place, and the vector grows for it if it has to.

## Representation

A directive that is not a file directive is like any other entry. The working directory is absent if
its name does not fit into the buffer for it.

## The loop

`addFile_cases` says what one entry does to the table: nothing, or a name at the end, or a name at
its own place. The invariant of the loop is `Names`, with the name that was given to each number
last. Names are made absolute with the working directory, so every name in the table is empty or has
a directory.
-/

namespace Racez

/-! ## Directives -/

/-- An operand of a directive. -/
inductive DirectiveOperand
  | int (i : ℤ)
  /-- A string, with its quotes. -/
  | string (text : List Char)
  | other
  deriving DecidableEq

/-- An entry of a section, as far as file directives are told apart. -/
inductive SectionEntry
  | file (operands : List DirectiveOperand)
  | other
  deriving DecidableEq

/-- Why the table cannot be built. -/
inductive FileTableFault
  /-- A string is constructed from a null pointer or from behind the end of another. -/
  | exception
  /-- A file has a negative number. -/
  | negative
  deriving DecidableEq

/-- The name with the quotes stripped, behind the working directory. -/
def filename (workingDir text : List Char) : List Char :=
  workingDir ++ '/' :: (text.drop 1).take (text.length - 2)

/-- What `BuildFileTable` does with an entry. -/
def addFile (workingDir : Option (List Char)) (table : List (List Char)) :
    SectionEntry → Except FileTableFault (List (List Char))
  | .file [.int number, .string text] =>
    if text = [] then .error .exception
    else
      match workingDir with
      | none => .error .exception
      | some dir =>
        if number = 0 then .ok (table ++ [filename dir text])
        else if number < 0 then .error .negative
        else
          let filenum := number.toNat
          .ok ((table ++ List.replicate (filenum + 1 - table.length) []).set filenum
            (filename dir text))
  | _ => .ok table

/-- `BuildFileTable`. -/
def buildFileTable (workingDir : Option (List Char)) (entries : List SectionEntry) :
    Except FileTableFault (List (List Char)) :=
  entries.foldlM (addFile workingDir) [[]]

/-! ## Names by number -/

/-- The name that an entry gives to a number. -/
def SectionEntry.names (dir : List Char) (k : ℕ) : SectionEntry → Option (List Char)
  | .file [.int number, .string text] => if number = k then some (filename dir text) else none
  | _ => none

/-- The name that was given to a number last. -/
def lastName (dir : List Char) (k : ℕ) (entries : List SectionEntry) : Option (List Char) :=
  entries.foldl (fun name entry ↦ (entry.names dir k).or name) none

private theorem lastName_append_singleton (dir : List Char) (k : ℕ) (entries : List SectionEntry)
    (entry : SectionEntry) :
    lastName dir k (entries ++ [entry]) = (entry.names dir k).or (lastName dir k entries) := by
  rw [lastName, List.foldl_append, List.foldl_cons, List.foldl_nil, ← lastName]

/-- An entry that can be processed in a working directory. -/
def SectionEntry.Proper (workingDir : Option (List Char)) : SectionEntry → Prop
  | .file [.int number, .string text] => workingDir ≠ none ∧ text ≠ [] ∧ 0 ≤ number
  | _ => True

section Table

variable {workingDir : Option (List Char)} {dir : List Char} {table table' : List (List Char)}
  {entries : List SectionEntry} {entry : SectionEntry} {k : ℕ}

/-- What one entry does to the table. -/
theorem addFile_cases (h : addFile workingDir table entry = .ok table') :
    (table' = table ∧ ∀ dir k, entry.names dir k = none)
      ∨ ∃ dir text, workingDir = some dir ∧ text ≠ []
        ∧ ((entry = .file [.int 0, .string text] ∧ table' = table ++ [filename dir text])
          ∨ ∃ n : ℕ, 0 < n ∧ entry = .file [.int n, .string text]
            ∧ table' = (table ++ List.replicate (n + 1 - table.length) []).set n
              (filename dir text)) := by
  unfold addFile at h
  split at h
  · next number text =>
    by_cases htext : text = []
    · rw [if_pos htext] at h
      cases h
    rw [if_neg htext] at h
    rcases workingDir with _ | dir
    · cases h
    refine Or.inr ⟨dir, text, rfl, htext, ?_⟩
    dsimp only at h
    split_ifs at h with hzero hneg
    · subst hzero
      exact Or.inl ⟨rfl, (Except.ok.inj h).symm⟩
    · refine Or.inr ⟨number.toNat, by omega, ?_, (Except.ok.inj h).symm⟩
      rw [Int.toNat_of_nonneg (by omega)]
  · next hne =>
    refine Or.inl ⟨(Except.ok.inj h).symm, fun dir k ↦ ?_⟩
    unfold SectionEntry.names
    split
    · next number text => exact absurd rfl (hne number text)
    · rfl

private theorem exists_addFile_iff :
    (∃ table', addFile workingDir table entry = .ok table') ↔ entry.Proper workingDir := by
  unfold addFile SectionEntry.Proper
  split
  · next number text =>
    by_cases htext : text = []
    · exact iff_of_false (by simp [htext]) fun h ↦ h.2.1 htext
    rw [if_neg htext]
    rcases workingDir with _ | dir
    · exact iff_of_false (by simp) fun h ↦ h.1 rfl
    dsimp only
    split_ifs with hzero hneg
    · exact iff_of_true ⟨_, rfl⟩ ⟨by simp, htext, by omega⟩
    · exact iff_of_false (by simp) fun h ↦ by omega
    · exact iff_of_true ⟨_, rfl⟩ ⟨by simp, htext, by omega⟩
  · exact iff_of_true ⟨_, rfl⟩ trivial

/-- The first entry is the empty name, and each number has the name it was given last. -/
structure Names (workingDir : Option (List Char)) (entries : List SectionEntry)
    (table : List (List Char)) : Prop where
  /-- The first entry is the empty name. -/
  zero : table[0]? = some []
  /-- A number has the name that was given to it last. -/
  last : ∀ dir k name, workingDir = some dir → 0 < k → lastName dir k entries = some name →
    table[k]? = some name

theorem Names.addFile (h : Names workingDir entries table)
    (hadd : addFile workingDir table entry = .ok table') :
    Names workingDir (entries ++ [entry]) table' := by
  have hlen : 0 < table.length := (List.getElem?_eq_some_iff.mp h.zero).1
  rcases addFile_cases hadd with ⟨rfl, hnames⟩ | ⟨dir, text, rfl, -, ⟨rfl, rfl⟩ | ⟨n, hn, rfl, rfl⟩⟩
  · refine ⟨h.zero, fun dir k name hdir hk hlast ↦ ?_⟩
    rw [lastName_append_singleton, hnames, Option.none_or] at hlast
    exact h.last dir k name hdir hk hlast
  · -- a name is appended, and no place with a name moves
    refine ⟨by rw [List.getElem?_append_left hlen, h.zero], ?_⟩
    rintro dir' k name ⟨⟩ hk hlast
    have hne : (0 : ℤ) ≠ k := by omega
    rw [lastName_append_singleton, SectionEntry.names, if_neg hne, Option.none_or] at hlast
    have hold := h.last dir k name rfl hk hlast
    rw [List.getElem?_append_left (List.getElem?_eq_some_iff.mp hold).1, hold]
  · refine ⟨?_, ?_⟩
    · rw [List.getElem?_set_ne (by omega), List.getElem?_append_left hlen, h.zero]
    rintro dir' k name ⟨⟩ hk hlast
    rw [lastName_append_singleton, SectionEntry.names] at hlast
    by_cases hkn : n = k
    · subst hkn
      rw [if_pos rfl] at hlast
      obtain rfl := Option.some.inj hlast
      rw [List.getElem?_set_self]
      rw [List.length_append, List.length_replicate]
      omega
    · rw [if_neg (by omega), Option.none_or] at hlast
      have hold := h.last dir k name rfl hk hlast
      rw [List.getElem?_set_ne hkn,
        List.getElem?_append_left (List.getElem?_eq_some_iff.mp hold).1, hold]

private theorem names_buildFileTable (h : buildFileTable workingDir entries = .ok table) :
    Names workingDir entries table := by
  refine Run.induction (P := fun entries table ↦ Names workingDir entries table) h ⟨rfl, ?_⟩ ?_
  · intro dir k name _ _ hlast
    exact absurd hlast nofun
  · intro entries' entry table table' _ hnames hadd
    exact hnames.addFile hadd

theorem slash_mem_of_mem_buildFileTable (h : buildFileTable workingDir entries = .ok table) :
    ∀ name ∈ table, name = [] ∨ '/' ∈ name := by
  refine Run.induction (P := fun _ table ↦ ∀ name ∈ table, name = [] ∨ '/' ∈ name) h (by simp) ?_
  intro _ entry table table' _ ih hadd name hname
  have hslash : ∀ dir text, '/' ∈ filename dir text := fun dir text ↦
    List.mem_append_right dir List.mem_cons_self
  rcases addFile_cases hadd with ⟨rfl, -⟩ | ⟨dir, text, -, -, ⟨-, rfl⟩ | ⟨n, -, -, rfl⟩⟩
  · exact ih name hname
  · rcases List.mem_append.mp hname with hname | hname
    · exact ih name hname
    · exact Or.inr (List.mem_singleton.mp hname ▸ hslash dir text)
  · rcases List.mem_or_eq_of_mem_set hname with hname | rfl
    · rcases List.mem_append.mp hname with hname | hname
      · exact ih name hname
      · exact Or.inl (List.eq_of_mem_replicate hname)
    · exact Or.inr (hslash dir text)

/-- **The table is built** exactly if every numbered directive can be processed, and then each
number from one on has the name that was given to it last, wherever names without a number have
gone. -/
theorem buildFileTable_spec (workingDir : Option (List Char)) (entries : List SectionEntry) :
    ((∃ table, buildFileTable workingDir entries = .ok table)
        ↔ ∀ entry ∈ entries, entry.Proper workingDir)
      ∧ ∀ table, buildFileTable workingDir entries = .ok table →
        Names workingDir entries table := by
  refine ⟨?_, fun table h ↦ names_buildFileTable h⟩
  rw [buildFileTable]
  generalize [[]] = table₀
  induction entries generalizing table₀ with
  | nil => exact iff_of_true ⟨table₀, rfl⟩ (by simp)
  | cons entry entries ih =>
    rw [List.forall_mem_cons, ← @exists_addFile_iff workingDir table₀ entry, List.foldlM_cons]
    constructor
    · rintro ⟨table, h⟩
      obtain ⟨table₁, h₁, h⟩ := Run.bind_eq_ok.mp h
      exact ⟨⟨table₁, h₁⟩, (ih table₁).mp ⟨table, h⟩⟩
    · rintro ⟨⟨table₁, h₁⟩, hrest⟩
      obtain ⟨table, h⟩ := (ih table₁).mpr hrest
      exact ⟨table, Run.bind_eq_ok.mpr ⟨table₁, h₁, h⟩⟩

end Table

end Racez
