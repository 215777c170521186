import Racez.Convert.Addresses

/-!
# The symbol that covers an address

A symbol has a size, and an address belongs to the symbol in whose range it lies. The search does
not look at sizes. It ends at the floor of the address, so it misses the symbol as soon as another
entry starts between the start of the symbol and the address: a label inside of a function, or a
section symbol without a size. Entries that start together with the symbol are found instead of it
under some sort, unless they have its name. `namesCovering_iff` says that nothing else can happen.

## Which name is printed

The search yields some floor of the address, and every floor is found under some sort
(`exists_convertLine_eq`). So a symbol is named whatever the sort if and only if all floors have its
name, and a number that is printed determines the offset of the floor, because it has no tab in it
(`print_injective`). The condition is on the entries between the start of the symbol and the
address, the start included (`NoneBetween`).
-/

namespace Racez

open SortedVector Stdio

variable {functions : List FunctionEntry} {r : Record} {f : FunctionEntry}

/-- The address lies in the range of the symbol. -/
def Covers (ip : BitVec 64) (f : FunctionEntry) : Prop :=
  f.offset.toNat ≤ ip.toNat ∧ ip.toNat < f.offset.toNat + f.size.toNat

instance (ip : BitVec 64) : DecidablePred (Covers ip) := fun _ ↦
  inferInstanceAs (Decidable (_ ∧ _))

/-- Whatever the sort, the name of the symbol is printed and the distance from it. -/
def NamesCovering (functions : List FunctionEntry) (r : Record) (f : FunctionEntry) : Prop :=
  ∀ (strcmp : Strcmp) (sorting : Sorting MyCompare),
    convertLine strcmp (sorting.sort functions) (writeRawRecord r)
      = .ok (f.functionName ++ '\t' :: decimal (r.memoryAccess.pip.toNat - f.offset.toNat)
        ++ ['\n'])

/-- Between the start of the symbol and the address no entry starts but at the symbol, under its
name. -/
def NoneBetween (functions : List FunctionEntry) (ip : BitVec 64) (f : FunctionEntry) : Prop :=
  ∀ g ∈ functions, f.offset.toNat ≤ g.offset.toNat → g.offset.toNat ≤ ip.toNat →
    g.offset = f.offset ∧ g.functionName = f.functionName

instance (ip : BitVec 64) (f : FunctionEntry) : Decidable (NoneBetween functions ip f) :=
  inferInstanceAs (Decidable (∀ g ∈ functions, _))

/-- A number has no tab in it, so the last tab of a line ends the name. -/
theorem print_injective {name name' : List Char} {d d' : ℤ}
    (h : name ++ '\t' :: decimal d ++ ['\n'] = name' ++ '\t' :: decimal d' ++ ['\n']) :
    name = name' ∧ d = d' := by
  have htab : ∀ d, '\t' ∉ (decimal d).reverse := fun d hc ↦
    notMem_decimal (by decide) (List.mem_reverse.mp hc)
  have hchr := congrArg (fun l ↦ strchr '\t' l.reverse) (List.append_cancel_right h)
  simp only [List.reverse_append, List.reverse_cons, List.append_assoc, List.singleton_append,
    strchr_append (htab d), strchr_append (htab d'), Option.some.injEq, Prod.mk.injEq,
    List.reverse_inj] at hchr
  exact ⟨hchr.2, decimal_injective hchr.1⟩

section Covering

variable (hr : r.type = .memoryOp) (hip : r.memoryAccess.pip.toNat < 2 ^ 63)
include hr hip

/-- Every floor of an address is printed under some sort. -/
theorem exists_convertLine_eq {g : FunctionEntry}
    (hg : IsFloor functions r.memoryAccess.pip g) (strcmp : Strcmp) :
    ∃ sorting : Sorting MyCompare,
      convertLine strcmp (sorting.sort functions) (writeRawRecord r)
        = .ok (cString g.functionName
          ++ '\t' :: decimal (r.memoryAccess.pip.toNat - g.offset.toNat) ++ ['\n']) := by
  obtain ⟨sorting, hlow⟩ := exists_lowEntry_eq hg
  obtain ⟨low, -, hemits⟩ := emits_of_lt hr hip ⟨g, hg.mem, hg.le⟩ strcmp sorting
  have hentry := hemits.entry
  rw [strtoll_writeRawRecord, addressRead_of_lt hr hip] at hentry
  obtain rfl : low = g := Option.some.inj (hentry.symm.trans hlow)
  exact ⟨sorting, hemits.line⟩

private theorem NamesCovering.noneBetween (hnames : ∀ g ∈ functions, '\x00' ∉ g.functionName)
    (hf : f ∈ functions) (hcovers : Covers r.memoryAccess.pip f) (h : NamesCovering functions r f) :
    NoneBetween functions r.memoryAccess.pip f := by
  intro g hg hfg hgip
  obtain ⟨low, hfloor, hemits⟩ := emits_of_lt hr hip ⟨f, hf, hcovers.1⟩ .sign mergeSorting
  have hle := hfloor.le
  -- the floor is printed, and its distance is that of `f`
  have hlow : low.offset.toNat = f.offset.toNat := by
    have hprint := Except.ok.inj (hemits.line.symm.trans (h .sign mergeSorting))
    have hdiff := (print_injective hprint).2
    omega
  have hoffset : g.offset = f.offset := by
    have hgreatest := hfloor.greatest g hg hgip
    exact BitVec.eq_of_toNat_eq (by omega)
  -- so `g` is a floor too, and some sort prints it
  have hgfloor : IsFloor functions r.memoryAccess.pip g :=
    ⟨hg, hgip, fun e he heip ↦ (hfloor.greatest e he heip).trans (hlow.trans_le hfg)⟩
  obtain ⟨sorting, hline⟩ := exists_convertLine_eq hr hip hgfloor .sign
  have hname := (print_injective (Except.ok.inj (hline.symm.trans (h .sign sorting)))).1
  exact ⟨hoffset, by rwa [cString_eq_self (hnames g hg)] at hname⟩

private theorem NoneBetween.namesCovering (hnames : ∀ g ∈ functions, '\x00' ∉ g.functionName)
    (hf : f ∈ functions) (hcovers : Covers r.memoryAccess.pip f)
    (h : NoneBetween functions r.memoryAccess.pip f) : NamesCovering functions r f := by
  intro strcmp sorting
  obtain ⟨low, hfloor, hemits⟩ := emits_of_lt hr hip ⟨f, hf, hcovers.1⟩ strcmp sorting
  obtain ⟨hoffset, hname⟩ := h low hfloor.mem (hfloor.greatest f hf hcovers.1) hfloor.le
  have hline := hemits.line
  rwa [cString_eq_self (hnames low hfloor.mem), hname, hoffset] at hline

/-- For a table that was read from a file and an address in the range of exactly one entry, the
entry is named under every sort exactly when none starts between its start and the address except
together with it and under its name. -/
theorem namesCovering_iff {symFile : Option (List Char)} {result : Bool}
    (hread : readSymFile symFile [] = ⟨functions, .ok result⟩)
    (honly : functions.filter (fun g ↦ Covers r.memoryAccess.pip g) = [f]) :
    NamesCovering functions r f ↔ NoneBetween functions r.memoryAccess.pip f := by
  have hnames : ∀ g ∈ functions, '\x00' ∉ g.functionName := by
    intro g hg
    have hmem : g ∈ (readSymFile symFile []).functions := by rwa [hread]
    exact notMem_of_mem_readSymFile hmem
  obtain ⟨hf, hcovers⟩ : f ∈ functions ∧ Covers r.memoryAccess.pip f := by
    have hmem := honly ▸ List.mem_singleton_self f
    simpa using hmem
  constructor
  · exact NamesCovering.noneBetween hr hip hnames hf hcovers
  · exact NoneBetween.namesCovering hr hip hnames hf hcovers

end Covering

/-- `     1: 0000000000000020        0 NOTYPE LOCAL DEFAULT 1 label`. -/
def labelRow : SymRow :=
  { mainRow with
    value := ⟨"0000000000000020".toList, by decide, List.all_eq_true.mp (by decide), by decide⟩
    size := .decimal 0 (by decide)
    name := "label".toList
    name_isLine := by decide }

/-- A function of 100 bytes and a label inside of it that has no size. -/
def labelTable : SymTable :=
  tableOf [mainRow, labelRow] (by
    rw [List.forall_mem_cons, List.forall_mem_singleton]
    decide)

private theorem readSymFile_labelTable :
    readSymFile (some labelTable.text) []
      = ⟨[⟨"main".toList, 16, 100⟩, ⟨"label".toList, 32, 0⟩], .ok true⟩ := by
  rw [SymTable.readSymFile_text (by decide) (by decide)]
  decide

/-- In front of the label. -/
theorem namesCovering_iff_beforeLabel :
    NamesCovering [⟨"main".toList, 16, 100⟩, ⟨"label".toList, 32, 0⟩] (accessAt 20)
        ⟨"main".toList, 16, 100⟩
      ↔ NoneBetween [⟨"main".toList, 16, 100⟩, ⟨"label".toList, 32, 0⟩] 20
        ⟨"main".toList, 16, 100⟩ :=
  namesCovering_iff (r := accessAt 20) rfl (by decide) readSymFile_labelTable (by decide)

/-- Behind the label. -/
theorem not_namesCovering_label :
    readSymFile (some labelTable.text) []
        = ⟨[⟨"main".toList, 16, 100⟩, ⟨"label".toList, 32, 0⟩], .ok true⟩
      ∧ [⟨"main".toList, 16, 100⟩, ⟨"label".toList, 32, 0⟩].filter (fun g ↦ Covers 40 g)
        = [⟨"main".toList, 16, 100⟩]
      ∧ ¬NamesCovering [⟨"main".toList, 16, 100⟩, ⟨"label".toList, 32, 0⟩] (accessAt 40)
        ⟨"main".toList, 16, 100⟩ := by
  refine ⟨readSymFile_labelTable, by decide, fun h ↦ ?_⟩
  have hnone := h.noneBetween rfl (by decide) (by decide) (by decide) (by decide)
  exact absurd hnone (by decide)

end Racez
