import SagePTE.PageTables.OutputText
import SagePTE.PageTables.Augmentor

/-!
# How the augmentor fills a file

A running index goes over the unallocated frames while the fields are filled. The frame
that a `NAN` gets is the one whose number is the number of `NAN` fields before it, record
by record and field by field. Two `NAN` fields never have the same number before them.

## Main definitions

* `Augmentor.nansBefore` — the number of `NAN` fields before a field
* `Augmentor.fillRows` — the records after filling

## Main results

* `Augmentor.drawMap_eq` — what is drawn from a supply
* `Augmentor.map_fields_fillEntries` — the records that are written
* `Augmentor.nansBefore_injective`, `Augmentor.nansBefore_lt`, `Augmentor.exists_nansBefore_eq`
* `Augmentor.nanCount_fillEntries` — the number of `NAN` fields that are left
-/

set_option autoImplicit false

namespace SagePTE.PageTables.Augmentor

open Numerals

/-! ### Drawing from a supply -/

section Draw

variable {α : Type} {f : α → List (BitVec 64) → α × List (BitVec 64)} {cost : α → ℕ}

/-- The number of frames that are drawn before the element at an index. -/
def costBefore (cost : α → ℕ) (l : List α) (i : ℕ) : ℕ := ((l.take i).map cost).sum

theorem costBefore_cons_succ (a : α) (l : List α) (i : ℕ) :
    costBefore cost (a :: l) (i + 1) = cost a + costBefore cost l i := by
  simp [costBefore]

/-- Where each element draws as many frames as it costs, an element gets the supply without
what those before it have drawn. -/
theorem drawMap_eq (hf : ∀ a pfns, (f a pfns).2 = pfns.drop (cost a)) (l : List α)
    (pfns : List (BitVec 64)) :
    drawMap f l pfns = (l.mapIdx fun i a => (f a (pfns.drop (costBefore cost l i))).1,
      pfns.drop (l.map cost).sum) := by
  induction l generalizing pfns with
  | nil => rfl
  | cons a l ih =>
    simp only [drawMap, hf, ih, List.mapIdx_cons, costBefore_cons_succ, List.drop_drop,
      List.map_cons, List.sum_cons]
    rfl

theorem drawMap_append (l : List α) (a : α) (pfns : List (BitVec 64)) :
    drawMap f (l ++ [a]) pfns =
      ((drawMap f l pfns).1 ++ [(f a (drawMap f l pfns).2).1], (f a (drawMap f l pfns).2).2) := by
  induction l generalizing pfns with
  | nil => rfl
  | cons b l ih => simp only [List.cons_append, drawMap, ih]

theorem map_drawMap {β : Type} {g : α → β} (hg : ∀ a pfns, g (f a pfns).1 = g a) (l : List α)
    (pfns : List (BitVec 64)) : (drawMap f l pfns).1.map g = l.map g := by
  induction l generalizing pfns with
  | nil => rfl
  | cons a l ih => simp only [drawMap, List.map_cons, hg, ih]

/-- What is still needed after drawing from a supply. -/
theorem sum_cost_drawMap (hf : ∀ a pfns, (f a pfns).2 = pfns.drop (cost a))
    (hcost : ∀ a pfns, cost (f a pfns).1 = cost a - pfns.length) (l : List α)
    (pfns : List (BitVec 64)) :
    ((drawMap f l pfns).1.map cost).sum = (l.map cost).sum - pfns.length := by
  induction l generalizing pfns with
  | nil => simp [drawMap]
  | cons a l ih =>
    simp only [drawMap, List.map_cons, List.sum_cons, ih, hf, hcost, List.length_drop]
    omega

/-- What an element draws comes before what a later one draws. -/
theorem costBefore_add_le {l : List α} {i j : ℕ} {a : α} (ha : l[i]? = some a) (hij : i < j) :
    costBefore cost l i + cost a ≤ costBefore cost l j := by
  induction l generalizing i j with
  | nil => simp at ha
  | cons b l ih =>
    obtain ⟨j, rfl⟩ := Nat.exists_eq_add_of_lt (Nat.zero_lt_of_lt hij)
    rw [Nat.zero_add, costBefore_cons_succ]
    cases i with
    | zero =>
      obtain rfl : b = a := by simpa using ha
      simp [costBefore]
    | succ i =>
      have hrest := ih (i := i) (j := j) (by simpa using ha) (by omega)
      rw [costBefore_cons_succ]
      omega

theorem costBefore_add_le_sum {l : List α} {i : ℕ} {a : α} (ha : l[i]? = some a) :
    costBefore cost l i + cost a ≤ (l.map cost).sum := by
  have hi : i < l.length := (List.getElem?_eq_some_iff.mp ha).1
  have hle : costBefore cost l i + cost a ≤ costBefore cost l l.length :=
    costBefore_add_le ha hi
  rwa [costBefore, costBefore, List.take_length] at hle

/-- Each of the frames that are drawn is drawn for some element. -/
theorem exists_costBefore_le {l : List α} {k : ℕ} (hk : k < (l.map cost).sum) :
    ∃ i a, l[i]? = some a ∧ costBefore cost l i ≤ k ∧ k < costBefore cost l i + cost a := by
  induction l generalizing k with
  | nil => simp at hk
  | cons b l ih =>
    rw [List.map_cons, List.sum_cons] at hk
    by_cases hb : k < cost b
    · exact ⟨0, b, rfl, Nat.zero_le k, by simpa [costBefore] using hb⟩
    · obtain ⟨i, a, ha, hle, hlt⟩ := ih (k := k - cost b) (by omega)
      refine ⟨i + 1, a, ha, ?_, ?_⟩ <;> rw [costBefore_cons_succ] <;> omega

end Draw

/-! ### Fields and entries -/

/-- The fields of an entry, as they are printed. -/
def Entry.fields (e : Entry) : List (List Char) := e.virtualAddr :: e.pfnFields

/-- A field after filling, if `n` frames have been drawn before it. -/
def filledField (pfns : List (BitVec 64)) (n : ℕ) (field : List Char) : List Char :=
  if field = nan then pfns[n]?.elim nan hexText else field

theorem hexText_ne_nan (pfn : BitVec 64) : hexText pfn ≠ nan := by
  intro h
  have hmem : 'N' ∈ hexText pfn := by simp [h, nan]
  exact (isNumeral_hexText pfn).not_mem rfl hmem

theorem fillField_fst (field : List Char) (pfns : List (BitVec 64)) (n : ℕ) :
    (fillField field (pfns.drop n)).1 = filledField pfns n field := by
  unfold fillField filledField
  split_ifs with hnan
  · rw [← List.head?_drop]
    cases pfns.drop n with
    | nil => exact hnan
    | cons pfn rest => rfl
  · rfl

theorem fillField_snd (field : List Char) (pfns : List (BitVec 64)) :
    (fillField field pfns).2 = pfns.drop (fieldNans field) := by
  unfold fillField fieldNans
  split_ifs
  · cases pfns <;> rfl
  · rfl

theorem fieldNans_fillField (field : List Char) (pfns : List (BitVec 64)) :
    fieldNans (fillField field pfns).1 = fieldNans field - pfns.length := by
  unfold fillField
  split_ifs with hnan
  · cases pfns with
    | nil => simp
    | cons pfn rest => simp [fieldNans, hnan, hexText_ne_nan]
  · simp [fieldNans, hnan]

theorem Entry.nanCount_eq (e : Entry) : e.nanCount = (e.pfnFields.map fieldNans).sum := by
  simp [nanCount, pfnFields]

/-- The frame of the data is filled like the others, and last. -/
theorem fillEntry_eq (e : Entry) (pfns : List (BitVec 64)) :
    (fillEntry e pfns).1.virtualAddr = e.virtualAddr ∧
      (fillEntry e pfns).1.pfnFields = (drawMap fillField e.pfnFields pfns).1 ∧
      (fillEntry e pfns).2 = (drawMap fillField e.pfnFields pfns).2 := by
  rw [Entry.pfnFields, Entry.pfnFields, drawMap_append]
  exact ⟨rfl, rfl, rfl⟩

theorem fillEntry_snd (e : Entry) (pfns : List (BitVec 64)) :
    (fillEntry e pfns).2 = pfns.drop e.nanCount := by
  rw [(fillEntry_eq e pfns).2.2, drawMap_eq fillField_snd, e.nanCount_eq]

/-- The number of `NAN` fields that are left. -/
theorem nanCount_fillEntries (entries : List Entry) (pfns : List (BitVec 64)) :
    nanCount (fillEntries entries pfns) = nanCount entries - pfns.length := by
  refine sum_cost_drawMap fillEntry_snd (fun e pfns => ?_) entries pfns
  rw [Entry.nanCount_eq, (fillEntry_eq e pfns).2.1, e.nanCount_eq]
  exact sum_cost_drawMap fillField_snd fieldNans_fillField e.pfnFields pfns

theorem map_virtualAddr_fillEntries (entries : List Entry) (pfns : List (BitVec 64)) :
    (fillEntries entries pfns).map Entry.virtualAddr = entries.map Entry.virtualAddr :=
  map_drawMap (fun e pfns => (fillEntry_eq e pfns).1) entries pfns

theorem nanCount_eq_zero_iff {entries : List Entry} :
    nanCount entries = 0 ↔ ∀ e ∈ entries, nan ∉ e.pfnFields := by
  have hfield (field : List Char) : fieldNans field = 0 ↔ nan ≠ field := by
    simp [fieldNans, eq_comm]
  have hentry (e : Entry) : e.nanCount = 0 ↔ nan ∉ e.pfnFields := by
    rw [e.nanCount_eq, List.sum_eq_zero_iff_forall_eq_nat, List.forall_mem_map]
    simp only [hfield]
    exact ⟨fun h hmem => h nan hmem rfl, fun h field hmem heq => h (heq ▸ hmem)⟩
  rw [nanCount, List.sum_eq_zero_iff_forall_eq_nat, List.forall_mem_map]
  simp only [hentry]

/-! ### Records -/

/-- The number of `NAN` fields of a record, the first field not counted. -/
def rowNans (fields : List (List Char)) : ℕ := (fields.tail.map fieldNans).sum

/-- The number of `NAN` fields before the field `j` of the record `i`. -/
def nansBefore (rows : List (List (List Char))) (i j : ℕ) : ℕ :=
  costBefore rowNans rows i + costBefore fieldNans (rows.getD i []).tail (j - 1)

/-- The records after filling. -/
def fillRows (rows : List (List (List Char))) (pfns : List (BitVec 64)) :
    List (List (List Char)) :=
  rows.mapIdx fun i fields => fields.mapIdx fun j field =>
    if j = 0 then field else filledField pfns (nansBefore rows i j) field

/-- The field `j` of the record `i` has to be filled. -/
def IsNan (rows : List (List (List Char))) (i j : ℕ) : Prop :=
  ∃ fields, rows[i]? = some fields ∧ fields.tail[j - 1]? = some nan ∧ j ≠ 0

theorem rowNans_fields (e : Entry) : rowNans e.fields = e.nanCount := by
  rw [rowNans, Entry.fields, List.tail_cons, e.nanCount_eq]

/-- The records that are written. -/
theorem map_fields_fillEntries (entries : List Entry) (pfns : List (BitVec 64)) :
    (fillEntries entries pfns).map Entry.fields = fillRows (entries.map Entry.fields) pfns := by
  rw [fillEntries, drawMap_eq fillEntry_snd, fillRows]
  refine List.ext_getElem (by simp) fun i hi _ => ?_
  have hi : i < entries.length := by simpa using hi
  have hget : (entries.map Entry.fields).getD i [] = entries[i].fields := by
    simp [List.getD_eq_getElem?_getD, hi]
  have hbefore : costBefore rowNans (entries.map Entry.fields) i =
      costBefore Entry.nanCount entries i := by
    simp only [costBefore, ← List.map_take, List.map_map, Function.comp_def, rowNans_fields]
  obtain ⟨hva, hpfns, -⟩ := fillEntry_eq entries[i]
    (pfns.drop (costBefore Entry.nanCount entries i))
  simp only [List.getElem_map, List.getElem_mapIdx, nansBefore, hget, hbefore]
  rw [Entry.fields, hva, hpfns, drawMap_eq fillField_snd, Entry.fields, List.mapIdx_cons]
  simp only [List.drop_drop, fillField_fst, List.tail_cons, Nat.add_sub_cancel, if_true,
    Nat.add_eq_zero_iff, one_ne_zero, and_false, if_false]

/-- A field after filling is one of the fields before, `NAN` or a number. -/
theorem mem_fillRows {rows : List (List (List Char))} {pfns : List (BitVec 64)}
    {fields : List (List Char)} (hfields : fields ∈ fillRows rows pfns) {field : List Char}
    (hfield : field ∈ fields) :
    (∃ fields' ∈ rows, field ∈ fields') ∨ field = nan ∨ ∃ pfn, field = hexText pfn := by
  rw [fillRows, List.mem_mapIdx] at hfields
  obtain ⟨i, hi, rfl⟩ := hfields
  rw [List.mem_mapIdx] at hfield
  obtain ⟨j, hj, rfl⟩ := hfield
  have hsame : ∃ fields' ∈ rows, rows[i][j] ∈ fields' :=
    ⟨rows[i], List.getElem_mem hi, List.getElem_mem hj⟩
  split_ifs
  · exact .inl hsame
  · unfold filledField
    split_ifs
    · cases pfns[nansBefore rows i j]? with
      | none => exact .inr (.inl rfl)
      | some pfn => exact .inr (.inr ⟨pfn, rfl⟩)
    · exact .inl hsame

/-! ### The order of the `NAN` fields -/

section Order

variable {rows : List (List (List Char))} {i j i' j' : ℕ}

/-- A `NAN` field is one more for those behind it, in its own record and in later ones. -/
theorem IsNan.costBefore_add_one_le (h : IsNan rows i j) :
    costBefore fieldNans (rows.getD i []).tail (j - 1) + 1 ≤ rowNans (rows.getD i []) ∧
      ∀ k, j - 1 < k → costBefore fieldNans (rows.getD i []).tail (j - 1) + 1 ≤
        costBefore fieldNans (rows.getD i []).tail k := by
  obtain ⟨fields, hrow, hfield, -⟩ := h
  have hget : rows.getD i [] = fields := by simp [List.getD_eq_getElem?_getD, hrow]
  have hone : fieldNans nan = 1 := rfl
  rw [hget, ← hone]
  exact ⟨costBefore_add_le_sum hfield, fun k hk => costBefore_add_le hfield hk⟩

theorem costBefore_add_rowNans_le (h : IsNan rows i j) (hlt : i < i') :
    costBefore rowNans rows i + rowNans (rows.getD i []) ≤ costBefore rowNans rows i' := by
  obtain ⟨fields, hrow, -⟩ := h
  have hget : rows.getD i [] = fields := by simp [List.getD_eq_getElem?_getD, hrow]
  rw [hget]
  exact costBefore_add_le hrow hlt

theorem nansBefore_lt_nansBefore (h : IsNan rows i j) (h' : IsNan rows i' j')
    (hlt : i < i' ∨ i = i' ∧ j < j') : nansBefore rows i j < nansBefore rows i' j' := by
  obtain ⟨hrow, hfield⟩ := h.costBefore_add_one_le
  unfold nansBefore
  rcases hlt with hlt | ⟨rfl, hlt⟩
  · have hrows := costBefore_add_rowNans_le h hlt
    omega
  · obtain ⟨-, -, -, hj⟩ := h
    have hlater := hfield (j' - 1) (by omega)
    omega

/-- No two `NAN` fields have the same number before them. -/
theorem nansBefore_injective (h : IsNan rows i j) (h' : IsNan rows i' j')
    (heq : nansBefore rows i j = nansBefore rows i' j') : i = i' ∧ j = j' := by
  rcases Nat.lt_trichotomy i i' with hlt | rfl | hlt
  · exact absurd heq (nansBefore_lt_nansBefore h h' (.inl hlt)).ne
  · rcases Nat.lt_trichotomy j j' with hlt | rfl | hlt
    · exact absurd heq (nansBefore_lt_nansBefore h h' (.inr ⟨rfl, hlt⟩)).ne
    · exact ⟨rfl, rfl⟩
    · exact absurd heq (nansBefore_lt_nansBefore h' h (.inr ⟨rfl, hlt⟩)).ne'
  · exact absurd heq (nansBefore_lt_nansBefore h' h (.inl hlt)).ne'

theorem nansBefore_lt (h : IsNan rows i j) : nansBefore rows i j < (rows.map rowNans).sum := by
  obtain ⟨hrow, -⟩ := h.costBefore_add_one_le
  obtain ⟨fields, hfields, -⟩ := h
  have hget : rows.getD i [] = fields := by simp [List.getD_eq_getElem?_getD, hfields]
  have hle : costBefore rowNans rows i + rowNans fields ≤ (rows.map rowNans).sum :=
    costBefore_add_le_sum hfields
  rw [hget] at hrow
  rw [nansBefore, hget]
  omega

/-- Below the number of all `NAN` fields, each number is that of the fields before one. -/
theorem exists_nansBefore_eq {k : ℕ} (hk : k < (rows.map rowNans).sum) :
    ∃ i j, IsNan rows i j ∧ nansBefore rows i j = k := by
  obtain ⟨i, fields, hfields, hle, hlt⟩ := exists_costBefore_le hk
  have hrest : k - costBefore rowNans rows i < (fields.tail.map fieldNans).sum := by
    rw [rowNans] at hlt
    omega
  obtain ⟨j, field, hfield, hle', hlt'⟩ := exists_costBefore_le hrest
  have hget : rows.getD i [] = fields := by simp [List.getD_eq_getElem?_getD, hfields]
  -- a field that is not `NAN` draws nothing
  obtain rfl : field = nan := by
    by_contra hne
    rw [fieldNans, if_neg hne] at hlt'
    omega
  refine ⟨i, j + 1, ⟨fields, hfields, hfield, by omega⟩, ?_⟩
  rw [nansBefore, hget, Nat.add_sub_cancel]
  have hone : fieldNans nan = 1 := rfl
  omega

end Order

end SagePTE.PageTables.Augmentor
