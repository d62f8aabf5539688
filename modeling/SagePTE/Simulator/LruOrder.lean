import SagePTE.Lib.Recency
import SagePTE.Simulator.Placement

/-!
# The order of an LRU cache

An LRU cache keeps in the counter of a block how many lines of the set have been asked for more
recently, and replaces a line with the largest counter. A line that is put into the set starts
with counter 1 and then moves to the front, so only lines with a counter of at most 1 make way
for it. With up to three ways these are all the others. From four ways on a line with counter 2
stays where it is, and two lines can have the largest counter; the first of them is replaced,
whichever is older.

## Main definitions

* `DeviceState.heldTags` — the lines of a set
* `DeviceState.Ranked` — the counters are ranks by recency

## Main results

* `DeviceState.Trace.ranked` — a trace keeps the counters right
* `Hierarchy.lru_order` — the line that is replaced is the least recent one
-/

set_option autoImplicit false

namespace SagePTE.Simulator

open Recency

namespace DeviceState

variable {g : Geometry} {d d' : DeviceState} {set way tag : ℕ}

/-- The lines of a set. -/
def heldTags (g : Geometry) (d : DeviceState) (set : ℕ) : Finset ℕ :=
  ((Finset.range g.associativity).image
    fun way => (d.blocks (set * g.associativity + way)).tag).erase tagInvalid

theorem mem_heldTags {u : ℕ} : u ∈ d.heldTags g set ↔
    u ≠ tagInvalid ∧ ∃ way < g.associativity, (d.blocks (set * g.associativity + way)).tag = u := by
  simp [heldTags]

theorem heldTags_congr (h : ∀ n, (d'.blocks n).tag = (d.blocks n).tag) :
    d'.heldTags g set = d.heldTags g set := by
  simp only [heldTags, h]

/-- A line of the set is not in another one. -/
theorem Placed.setOf_eq (h : d.Placed g) (hset : set < g.blocksPerWay) {u : ℕ}
    (hu : u ∈ d.heldTags g set) : g.setOf u = set := by
  obtain ⟨hvalid, way, hway, rfl⟩ := mem_heldTags.mp hu
  exact Nat.eq_of_mul_eq_mul_right g.associativity_pos (h.inSet set hset way hway hvalid)

/-! ### What LRU does to the counters -/

theorem accessUpdate_lru_counter (d : DeviceState) (set' : ℕ) {w : ℕ} (hway : way < g.associativity)
    (hw : w < g.associativity) :
    ((d.accessUpdate g .lru (set * g.associativity) way).blocks
        (set' * g.associativity + w)).counter =
      let cnt := (d.blocks (set * g.associativity + way)).counter
      let c := (d.blocks (set' * g.associativity + w)).counter
      if set' ≠ set ∨ cnt = 0 then c else if w = way then 0 else if c ≤ cnt then c + 1 else c := by
  simp only [accessUpdate, blockNo_natCast]
  by_cases hcnt : (d.blocks (set * g.associativity + way)).counter = 0
  · simp [hcnt]
  · simp only [hcnt, or_false, if_false]
    by_cases hset : set' = set
    · subst hset
      simp only [Nat.add_left_cancel_iff, Nat.le_add_right, Nat.add_lt_add_iff_left, hw, true_and,
        ne_eq, not_true, if_false]
      split_ifs <;> rfl
    · -- the block is outside the set
      have hne : set' * g.associativity + w ≠ set * g.associativity + way :=
        fun heq => hset (g.block_inj hw hway heq).1
      have hout : ¬(set * g.associativity ≤ set' * g.associativity + w ∧
          set' * g.associativity + w < set * g.associativity + g.associativity) := by
        rintro ⟨hlo, hhi⟩
        obtain ⟨v, hv⟩ := Nat.exists_eq_add_of_le hlo
        exact hset (g.block_inj hw (by omega) hv).1
      simp only [hne, hset, ne_eq, not_false_eq_true, if_true, if_false]
      rw [if_neg fun h => hout ⟨h.1, h.2.1⟩]

/-- The scan ends at an invalid way, or at one with the largest counter. -/
theorem lruVictim_spec (block : ℕ → Block) (ways : List ℕ) {maxCounter maxWay : ℕ}
    (hmax : maxCounter ≤ (block maxWay).counter) :
    (block (lruVictim block ways maxCounter maxWay)).tag = tagInvalid ∨
      maxCounter ≤ (block (lruVictim block ways maxCounter maxWay)).counter ∧
      ∀ way ∈ ways,
        (block way).counter ≤ (block (lruVictim block ways maxCounter maxWay)).counter := by
  induction ways generalizing maxCounter maxWay with
  | nil => exact .inr ⟨hmax, by simp⟩
  | cons way ways ih =>
    rw [lruVictim]
    split_ifs with hinvalid hlt
    · exact .inl hinvalid
    · refine (ih le_rfl).imp_right fun h => ⟨hlt.le.trans h.1, ?_⟩
      exact List.forall_mem_cons.mpr h
    · refine (ih hmax).imp_right fun h => ⟨h.1, ?_⟩
      exact List.forall_mem_cons.mpr ⟨(not_lt.mp hlt).trans h.1, h.2⟩

/-- The way that a line is put into. -/
theorem exists_put_lru (d : DeviceState) (tag : ℕ) :
    ∃ way < g.associativity, d.putBlock g .lru tag = g.computeBlockIdx tag + way ∧
      ((d.blocks (g.computeBlockIdx tag + way)).tag = tagInvalid ∨ ∀ w < g.associativity,
        (d.blocks (g.computeBlockIdx tag + w)).counter ≤
          (d.blocks (g.computeBlockIdx tag + way)).counter) := by
  have hspec := lruVictim_spec (fun w => d.blocks (g.computeBlockIdx tag + w))
    (List.range g.associativity) (Nat.zero_le (d.blocks (g.computeBlockIdx tag + 0)).counter)
  refine ⟨_, lruVictim_lt (fun _ h => List.mem_range.mp h) 0 g.associativity_pos,
    blockNo_natCast _ _, hspec.imp_right fun h w hw => h.2 w (List.mem_range.mpr hw)⟩

/-- The line that is put comes first, and lines with a counter of at most 1 make way for it. -/
theorem put_lru_counter (d : DeviceState) (set : ℕ) {w : ℕ} (hway : way < g.associativity)
    (hw : w < g.associativity) (hput : d.putBlock g .lru tag = g.computeBlockIdx tag + way) :
    ((d.put g .lru tag).2.blocks (set * g.associativity + w)).counter =
      let c := (d.blocks (set * g.associativity + w)).counter
      if set ≠ g.setOf tag then c else if w = way then 0 else if c ≤ 1 then c + 1 else c := by
  have hvictim : lruVictim (fun w => d.blocks (g.setOf tag * g.associativity + w))
      (List.range g.associativity) 0 0 = way := by
    simpa [putBlock, put, replaceWhichWay, blockNo_natCast, g.computeBlockIdx_eq] using hput
  -- the counter of the block is 1 when the line moves to the front
  have hfresh (d₁ : DeviceState) (h₁ : d₁.blocks =
      (d.setCounter (g.setOf tag * g.associativity + way) 1).blocks) (n : ℕ) :
      ((d₁.setTag (g.setOf tag * g.associativity + way) tag).blocks n).counter =
        if n = g.setOf tag * g.associativity + way then 1 else (d.blocks n).counter := by
    rw [setTag_counter, h₁, setCounter_counter]
  simp only [put, replaceWhichWay, g.computeBlockIdx_eq tag, hvictim, blockNo_natCast]
  rw [accessUpdate_lru_counter _ _ hway hw]
  rw [hfresh _ (by split_ifs <;> rfl), hfresh _ (by split_ifs <;> rfl)]
  by_cases hset : set = g.setOf tag
  · subst hset
    by_cases hww : w = way
    · simp [hww]
    · simp [hww]
  · have hne : set * g.associativity + w ≠ g.setOf tag * g.associativity + way :=
      fun heq => hset (g.block_inj hw hway heq).1
    simp [hset, hne]

/-! ### The lines of a set after a replacement -/

theorem Placed.heldTags_put (h : d.Placed g) (hmiss : ¬d.Holds g tag) (hvalid : tag ≠ tagInvalid)
    (hway : way < g.associativity) (hput : d.putBlock g .lru tag = g.computeBlockIdx tag + way) :
    (d.put g .lru tag).2.heldTags g (g.setOf tag) = insert tag ((d.heldTags g (g.setOf tag)).erase
      (d.blocks (g.computeBlockIdx tag + way)).tag) := by
  have htag (w : ℕ) : ((d.put g .lru tag).2.blocks (g.setOf tag * g.associativity + w)).tag =
      if w = way then tag else (d.blocks (g.setOf tag * g.associativity + w)).tag := by
    simp only [put_tag, hput, g.computeBlockIdx_eq, Nat.add_left_cancel_iff]
  ext u
  simp only [Finset.mem_insert, Finset.mem_erase, mem_heldTags, htag, g.computeBlockIdx_eq]
  constructor
  · rintro ⟨hu, w, hw, heq⟩
    split_ifs at heq with hww
    · exact .inl heq.symm
    · refine .inr ⟨?_, hu, w, hw, heq⟩
      -- the replaced line was in one way only
      rintro rfl
      rw [← heq] at hu
      exact hww (h.inOneWay _ (g.setOf_lt tag) w hw way hway hu heq)
  · rintro (rfl | ⟨hne, hu, w, hw, heq⟩)
    · exact ⟨hvalid, way, hway, if_pos rfl⟩
    · refine ⟨hu, w, hw, ?_⟩
      rw [if_neg, heq]
      rintro rfl
      exact hne heq.symm

theorem heldTags_put_of_ne (hset : set ≠ g.setOf tag) (hway : way < g.associativity)
    (hput : d.putBlock g .lru tag = g.computeBlockIdx tag + way) :
    (d.put g .lru tag).2.heldTags g set = d.heldTags g set := by
  ext u
  simp only [mem_heldTags, put_tag, hput, g.computeBlockIdx_eq]
  refine and_congr_right fun _ => exists_congr fun w => and_congr_right fun hw => ?_
  rw [if_neg fun heq => hset (g.block_inj hw hway heq).1]

/-- All lines but the replaced one and another one are in the other ways. -/
theorem card_heldTags_erase_le (d : DeviceState) (set : ℕ) {w : ℕ} (hway : way < g.associativity)
    (hw : w < g.associativity) (hne : w ≠ way) :
    (((d.heldTags g set).erase (d.blocks (set * g.associativity + way)).tag).erase
      (d.blocks (set * g.associativity + w)).tag).card ≤ g.associativity - 2 := by
  have hsub : ((d.heldTags g set).erase (d.blocks (set * g.associativity + way)).tag).erase
      (d.blocks (set * g.associativity + w)).tag ⊆
        (((Finset.range g.associativity).erase way).erase w).image
          fun v => (d.blocks (set * g.associativity + v)).tag := by
    intro u hu
    simp only [Finset.mem_erase, mem_heldTags] at hu
    obtain ⟨hnew, hneway, -, v, hv, rfl⟩ := hu
    refine Finset.mem_image.mpr ⟨v, ?_, rfl⟩
    simp only [Finset.mem_erase, Finset.mem_range]
    exact ⟨fun h => hnew (h ▸ rfl), fun h => hneway (h ▸ rfl), hv⟩
  refine (Finset.card_le_card hsub).trans (Finset.card_image_le.trans ?_)
  rw [Finset.card_erase_of_mem (by simp [hne, hw]), Finset.card_erase_of_mem (by simp [hway]),
    Finset.card_range]
  omega

/-! ### The counters are ranks -/

/-- The counter of a line is the number of lines in the set that have been asked for since. -/
def Ranked (g : Geometry) (asked : List ℕ) (d : DeviceState) : Prop :=
  ∀ set < g.blocksPerWay, ∀ way < g.associativity,
    (d.blocks (set * g.associativity + way)).tag ≠ tagInvalid →
      (d.blocks (set * g.associativity + way)).tag ∈ asked ∧
      (d.blocks (set * g.associativity + way)).counter =
        rank (d.heldTags g set) asked (d.blocks (set * g.associativity + way)).tag

variable {asked : List ℕ}

theorem Ranked.congr (h : d.Ranked g asked) (hblocks : d'.blocks = d.blocks) :
    d'.Ranked g asked := by
  intro set hset way hway hvalid
  rw [heldTags_congr (d := d) fun n => by rw [hblocks]]
  rw [hblocks] at hvalid ⊢
  exact h set hset way hway hvalid

/-- A line that is found moves to the front. -/
theorem Ranked.hit (h : d.Ranked g asked) (hplaced : d.Placed g) (hway : way < g.associativity)
    (hvalid : tag ≠ tagInvalid) (htag : (d.blocks (g.computeBlockIdx tag + way)).tag = tag) :
    (d.accessUpdate g .lru (g.computeBlockIdx tag) way).Ranked g (tag :: asked) := by
  intro set hset w hw hwvalid
  rw [g.computeBlockIdx_eq] at htag
  rw [accessUpdate_tag] at hwvalid
  obtain ⟨hmem, hcounter⟩ := h set hset w hw hwvalid
  have hu : (d.blocks (set * g.associativity + w)).tag ∈ d.heldTags g set :=
    mem_heldTags.mpr ⟨hwvalid, w, hw, rfl⟩
  rw [heldTags_congr fun n => accessUpdate_tag _ _ _ _ _ n, accessUpdate_tag,
    g.computeBlockIdx_eq, accessUpdate_lru_counter d set hway hw]
  refine ⟨List.mem_cons_of_mem _ hmem, ?_⟩
  dsimp only
  by_cases hsame : set = g.setOf tag
  · subst hsame
    have hcnt := (h _ hset way hway (by rwa [htag])).2
    rw [htag] at hcnt
    have htmem : tag ∈ d.heldTags g (g.setOf tag) := mem_heldTags.mpr ⟨hvalid, way, hway, htag⟩
    simp only [ne_eq, not_true, false_or]
    by_cases hww : w = way
    · subst hww
      rw [htag, rank_cons_self, if_pos rfl]
      split_ifs with hzero
      · exact hzero
      · rfl
    · have hne : (d.blocks (g.setOf tag * g.associativity + w)).tag ≠ tag := fun heq =>
        hww (hplaced.inOneWay _ hset w hw way hway hwvalid (heq.trans htag.symm))
      have hidx : asked.idxOf (d.blocks (g.setOf tag * g.associativity + w)).tag ≠
          asked.idxOf tag := fun heq => hne ((List.idxOf_inj hmem).mp heq)
      -- the line is behind the other one exactly if its counter is larger
      have hlt := rank_lt_rank_iff (l := asked) (b := tag) hu
      rw [← hcounter, ← hcnt] at hlt
      have hgt := rank_lt_rank_iff (l := asked)
        (b := (d.blocks (g.setOf tag * g.associativity + w)).tag) htmem
      rw [← hcounter, ← hcnt] at hgt
      rw [rank_cons_of_mem htmem hne, if_neg hww, ← hcounter]
      split_ifs <;> omega
  · have hout : tag ∉ d.heldTags g set := fun hin => hsame (hplaced.setOf_eq hset hin).symm
    have hne : (d.blocks (set * g.associativity + w)).tag ≠ tag := fun heq => hout (heq ▸ hu)
    rw [if_pos (.inl hsame), rank_cons_of_notMem hout hne]
    exact hcounter

/-- The way that is given up holds no line more recent than another line of the set. -/
theorem Ranked.le_idxOf_put (h : d.Ranked g asked) (hasked : tagInvalid ∉ asked)
    (hway : way < g.associativity)
    (hvictim : (d.blocks (g.computeBlockIdx tag + way)).tag = tagInvalid ∨ ∀ w < g.associativity,
      (d.blocks (g.computeBlockIdx tag + w)).counter ≤
        (d.blocks (g.computeBlockIdx tag + way)).counter)
    {w : ℕ} (hw : w < g.associativity)
    (hwvalid : (d.blocks (g.computeBlockIdx tag + w)).tag ≠ tagInvalid) :
    asked.idxOf (d.blocks (g.computeBlockIdx tag + w)).tag ≤
      asked.idxOf (d.blocks (g.computeBlockIdx tag + way)).tag := by
  by_cases hinvalid : (d.blocks (g.computeBlockIdx tag + way)).tag = tagInvalid
  · rw [hinvalid, List.idxOf_eq_length_iff.mpr hasked]
    exact List.idxOf_le_length
  · have hle := hvictim.resolve_left hinvalid w hw
    rw [g.computeBlockIdx_eq] at hinvalid hwvalid hle ⊢
    obtain ⟨-, hcounter⟩ := h _ (g.setOf_lt tag) w hw hwvalid
    obtain ⟨-, hcounter'⟩ := h _ (g.setOf_lt tag) way hway hinvalid
    rw [hcounter, hcounter'] at hle
    by_contra hlt
    exact absurd ((rank_lt_rank_iff (mem_heldTags.mpr ⟨hinvalid, way, hway, rfl⟩)).mpr
      (not_le.mp hlt)) (not_lt.mpr hle)

/-- A line that is put moves to the front. With three ways at most, the others all make way. -/
theorem Ranked.put (h : d.Ranked g asked) (hplaced : d.Placed g) (hasked : tagInvalid ∉ asked)
    (hways : g.associativity ≤ 3) (hmiss : ¬d.Holds g tag) (hvalid : tag ≠ tagInvalid) :
    (d.put g .lru tag).2.Ranked g (tag :: asked) := by
  obtain ⟨way, hway, hput, hvictim⟩ := d.exists_put_lru (g := g) tag
  intro set hset w hw hwvalid
  rw [put_lru_counter d set hway hw hput]
  dsimp only
  by_cases hsame : set = g.setOf tag
  · subst hsame
    rw [hplaced.heldTags_put hmiss hvalid hway hput]
    rw [put_tag, hput, g.computeBlockIdx_eq] at hwvalid ⊢
    by_cases hww : w = way
    · subst hww
      simp [rank_cons_self]
    · have hblock : g.setOf tag * g.associativity + w ≠ g.setOf tag * g.associativity + way := by
        omega
      rw [if_neg hblock] at hwvalid ⊢
      obtain ⟨hmem, hcounter⟩ := h _ hset w hw hwvalid
      have hne : (d.blocks (g.setOf tag * g.associativity + w)).tag ≠ tag :=
        fun heq => hmiss ⟨w, hw, heq⟩
      have hout : tag ∉ d.heldTags g (g.setOf tag) := fun hin => by
        obtain ⟨-, v, hv, heq⟩ := mem_heldTags.mp hin
        exact hmiss ⟨v, hv, heq⟩
      have hold := h.le_idxOf_put hasked hway hvictim hw hwvalid
      rw [g.computeBlockIdx_eq] at hold
      have hone := (rank_le_card hold).trans (d.card_heldTags_erase_le _ hway hw hww)
      rw [← hcounter] at hone
      rw [rank_replace hout hne hold, ← hcounter]
      refine ⟨List.mem_cons_of_mem _ hmem, ?_⟩
      rw [if_neg (not_not.mpr rfl), if_neg hww, if_pos (by omega)]
  · have hblock : set * g.associativity + w ≠ g.computeBlockIdx tag + way :=
      fun heq => hsame (g.block_inj hw hway heq).1
    rw [heldTags_put_of_ne hsame hway hput]
    rw [put_tag, hput, if_neg hblock] at hwvalid ⊢
    obtain ⟨hmem, hcounter⟩ := h set hset w hw hwvalid
    have hu : (d.blocks (set * g.associativity + w)).tag ∈ d.heldTags g set :=
      mem_heldTags.mpr ⟨hwvalid, w, hw, rfl⟩
    have hout : tag ∉ d.heldTags g set := fun hin => by
      exact hsame (hplaced.setOf_eq hset hin).symm
    rw [rank_cons_of_notMem hout fun heq => hout (heq ▸ hu), if_pos hsame]
    exact ⟨List.mem_cons_of_mem _ hmem, hcounter⟩

/-- Only valid tags are asked for. -/
theorem Trace.tagInvalid_notMem_asked {policy : ReplacePolicy} {events : List LineEvent}
    (h : Trace g policy d events d') (hslip : ∀ e ∈ events, ¬e.IsSlip) :
    tagInvalid ∉ events.filterMap LineEvent.asked := by
  induction h with
  | start => simp
  | keep _ _ ih => exact ih hslip
  | hit _ _ hvalid _ ih =>
    simpa [LineEvent.asked, Ne.symm hvalid] using ih (List.forall_mem_cons.mp hslip).2
  | slip tag _ _ _ _ => exact absurd ⟨tag, rfl⟩ (hslip _ List.mem_cons_self)
  | put _ _ hvalid ih =>
    simpa [LineEvent.asked, Ne.symm hvalid] using ih (List.forall_mem_cons.mp hslip).2
  | drop _ _ ih => simpa [LineEvent.asked] using ih (List.forall_mem_cons.mp hslip).2

/-- **The counters along a trace** are ranks by recency, with three ways at most. -/
theorem Trace.ranked {events : List LineEvent} (h : Trace g .lru d events d')
    (hdrop : ∀ e ∈ events, ¬e.IsDrop) (hslip : ∀ e ∈ events, ¬e.IsSlip)
    (hways : g.associativity ≤ 3) (hplaced : d.Placed g) (hd : d.Ranked g []) :
    d'.Ranked g (events.filterMap LineEvent.asked) := by
  induction h with
  | start => exact hd
  | keep _ hsame ih => exact (ih hdrop hslip).congr hsame.1
  | hit htrace hway hvalid htag ih =>
    exact (ih (List.forall_mem_cons.mp hdrop).2 (List.forall_mem_cons.mp hslip).2).hit
      (htrace.placed (by decide) hplaced) hway hvalid htag
  | slip tag _ _ _ _ => exact absurd ⟨tag, rfl⟩ (hslip _ List.mem_cons_self)
  | put htrace hmiss hvalid ih =>
    have hslip' := (List.forall_mem_cons.mp hslip).2
    exact (ih (List.forall_mem_cons.mp hdrop).2 hslip').put
      (htrace.placed (by decide) hplaced) (htrace.tagInvalid_notMem_asked hslip') hways hmiss hvalid
  | drop _ _ _ => exact absurd ⟨_, rfl⟩ (hdrop _ List.mem_cons_self)

/-- The line in the way that is given up is the least recent one of the set. -/
theorem Ranked.idxOf_lt_put (h : d.Ranked g asked) (hplaced : d.Placed g)
    (hasked : tagInvalid ∉ asked)
    (hfull : ∀ way < g.associativity, (d.blocks (g.computeBlockIdx tag + way)).tag ≠ tagInvalid) :
    ∃ way < g.associativity, d.putBlock g .lru tag = g.computeBlockIdx tag + way ∧
      ∀ w < g.associativity, w ≠ way →
        asked.idxOf (d.blocks (g.computeBlockIdx tag + w)).tag <
          asked.idxOf (d.blocks (g.computeBlockIdx tag + way)).tag := by
  obtain ⟨way, hway, hput, hvictim⟩ := d.exists_put_lru (g := g) tag
  refine ⟨way, hway, hput, fun w hw hne => ?_⟩
  refine lt_of_le_of_ne (h.le_idxOf_put hasked hway hvictim hw (hfull w hw)) fun heq => hne ?_
  have hvalid := hfull w hw
  rw [g.computeBlockIdx_eq] at heq hvalid
  obtain ⟨hmem, -⟩ := h _ (g.setOf_lt tag) w hw hvalid
  exact hplaced.inOneWay _ (g.setOf_lt tag) w hw way hway hvalid ((List.idxOf_inj hmem).mp heq)

theorem ranked_initial (g : Geometry) (policy : ReplacePolicy) :
    (initial g policy).Ranked g [] := by
  intro set _ way _ hvalid
  exact absurd (initial_tag g policy _) hvalid

end DeviceState

/-! ### Requests to an LRU cache -/

namespace Hierarchy

open DeviceState

variable {ι : Type} [DecidableEq ι] {H : Hierarchy ι} {j : ι}

/-- **The order of an LRU cache** with three ways at most. Requests, on whatever devices, are a
trace of the cache without dropped lines and without a failing shortcut, if its shortcut is to be
relied on and no inclusive device has it as a child. The trace of requests to a cache without
prefetcher asks for their tags. After every such trace, a line that is put into a full set
replaces the one that was last asked for the longest time ago. -/
theorem lru_order (hpolicy : (H.dev j).policy = .lru) (hj : H.Tame j) (hund : H.Undisturbed j)
    (hways : (H.geometry j).associativity ≤ 3) :
    (∀ ops : List (CacheOp ι), (∀ op ∈ ops, op.isRequest = true) →
      ∃ events, Trace (H.geometry j) .lru (H.initialStore j) events (H.after ops j) ∧
        (∀ e ∈ events, ¬e.IsDrop) ∧ ∀ e ∈ events, ¬e.IsSlip) ∧
    ((H.dev j).prefetcher = none → ∀ ms : List Memref,
      ∃ events, Trace (H.geometry j) .lru (H.initialStore j) events
          (H.after (ms.map (.request j)) j) ∧
        (∀ e ∈ events, ¬e.IsDrop) ∧ (∀ e ∈ events, ¬e.IsSlip) ∧
        events.filterMap LineEvent.asked = (ms.flatMap (H.requestedTags j)).reverse) ∧
    ∀ events d, Trace (H.geometry j) .lru (H.initialStore j) events d →
      (∀ e ∈ events, ¬e.IsDrop) → (∀ e ∈ events, ¬e.IsSlip) → ∀ tag,
      (∀ way < (H.geometry j).associativity,
        (d.blocks ((H.geometry j).computeBlockIdx tag + way)).tag ≠ tagInvalid) →
      ∃ way < (H.geometry j).associativity,
        d.putBlock (H.geometry j) .lru tag = (H.geometry j).computeBlockIdx tag + way ∧
        ∀ w < (H.geometry j).associativity, w ≠ way →
          (events.filterMap LineEvent.asked).idxOf
              (d.blocks ((H.geometry j).computeBlockIdx tag + w)).tag <
            (events.filterMap LineEvent.asked).idxOf
              (d.blocks ((H.geometry j).computeBlockIdx tag + way)).tag := by
  refine ⟨fun ops hops => ?_, fun hpre ms => ?_, fun events d htrace hdrop hslip tag hfull => ?_⟩
  · obtain ⟨events, htrace, hdrop, hsync⟩ := after_evolved (H := H) ops j
    rw [hpolicy] at htrace
    exact ⟨events, htrace, hdrop hops hund, (hsync hj).2⟩
  · obtain ⟨events, htrace, hdrop, hsync, hasked⟩ := after_requests_trace hpre ms
    rw [hpolicy] at htrace
    exact ⟨events, htrace, hdrop hund, (hsync hj).2, hasked⟩
  · rw [initialStore] at htrace
    have hplaced := placed_initial (H.geometry j) (H.dev j).policy
    have hranked := htrace.ranked hdrop hslip hways hplaced (ranked_initial _ _)
    exact hranked.idxOf_lt_put (htrace.placed (by decide) hplaced)
      (htrace.tagInvalid_notMem_asked hslip) hfull

/-- Four lines in one set of three ways, the first of them read again before the last: it stays,
and the second one is replaced. -/
theorem lru_order_three_ways :
    let H := single (.lines64 3 0) .lru none
    let ms := [readAt 0x0, readAt 0x40, readAt 0x80, readAt 0x0]
    let d := H.after (ms.map (.request ())) ()
    (∀ way < 3, (d.blocks way).tag ≠ tagInvalid) ∧ ¬d.Holds (H.geometry ()) 3 ∧
      ∃ way < 3, d.putBlock (H.geometry ()) .lru 3 = way ∧ ∀ w < 3, w ≠ way →
        [0, 2, 1, 0].idxOf (d.blocks w).tag < [0, 2, 1, 0].idxOf (d.blocks way).tag := by
  intro H ms d
  have hfull : ∀ way < 3, (d.blocks way).tag ≠ tagInvalid := by decide +kernel
  obtain ⟨-, hruns, htraces⟩ := lru_order (H := H) (j := ()) rfl
    ⟨by decide, fun _ h => by cases h⟩ (undisturbed_single _ _ _) (by decide)
  obtain ⟨events, htrace, hdrop, hslip, hasked⟩ := hruns rfl ms
  have horder := htraces events d htrace hdrop hslip 3
  rw [hasked] at horder
  have hset : (H.geometry ()).computeBlockIdx 3 = 0 := by decide
  simp only [hset, Nat.zero_add] at horder
  exact ⟨hfull, by decide +kernel, horder hfull⟩

/-- Eight lines in one set of four ways: the last one replaces line 4, although line 3 is still
there and has been asked for before it. -/
theorem lru_replaces_newer_line :
    let H := single (.lines64 4 0) .lru none
    let ms := [readAt 0x0, readAt 0x40, readAt 0x80, readAt 0xc0, readAt 0x100, readAt 0x140,
      readAt 0x180]
    let d := H.after (ms.map (.request ())) ()
    let d' := H.after ((ms ++ [readAt 0x1c0]).map (.request ())) ()
    ms.flatMap (H.requestedTags ()) = [0, 1, 2, 3, 4, 5, 6] ∧
      (∀ way < 4, (d.blocks way).tag ≠ tagInvalid) ∧
      d.Holds (H.geometry ()) 3 ∧ d.Holds (H.geometry ()) 4 ∧
      d'.Holds (H.geometry ()) 3 ∧ ¬d'.Holds (H.geometry ()) 4 := by
  decide +kernel

end Hierarchy

end SagePTE.Simulator
