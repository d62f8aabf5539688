import SagePTE.Simulator.DroppedLines
import SagePTE.Simulator.RequestLines

/-!
# The devices of a hierarchy, one by one

A request on one device may change any other. What it does to each of them is a list of
line events. A device further down only drops lines, and it drops none unless an inclusive
device has it as a child. The shortcut of a device never fails if the device has no
prefetcher. It does not fail either if the prefetched line is always in another set and
nobody else takes lines away: the prefetch comes back to the device before the request has
written down its own tag, and finds the shortcut of the request before.

## Main definitions

* `Hierarchy.Tame` — the shortcut of the device cannot fail
* `Hierarchy.Passes` — what happens to a device, to its shortcut and in which order
* `Hierarchy.Evolved`, `Hierarchy.Served` — the same for a request, on another device and on it

## Main results

* `Hierarchy.requestFuel_serves` — a request, at any depth of the recursion
* `Hierarchy.request_serves` — a request on a device
-/

set_option autoImplicit false

namespace SagePTE.Simulator

open DeviceState

variable {ι : Type}

/-! ### The next line -/

namespace Geometry

variable (g : Geometry)

theorem computeTag_add_blockSize (addr : BitVec 64) :
    g.computeTag (addr + BitVec.ofNat 64 g.blockSize) =
      (g.computeTag addr + 1) % 2 ^ (64 - g.blockSizeBits) := by
  have hbits := g.bits_lt
  have hpow : 2 ^ 64 = g.blockSize * 2 ^ (64 - g.blockSizeBits) := by
    rw [blockSize, ← Nat.pow_add]
    congr 1
    omega
  rw [computeTag_eq_div, computeTag_eq_div, BitVec.toNat_add, BitVec.toNat_ofNat, Nat.add_mod_mod,
    hpow, Nat.mod_mul_right_div_self, Nat.add_div_right _ g.blockSize_pos]

/-- With two sets or more, the line after the last one included, the next line is in another
set. -/
theorem setOf_next_ne (hsets : 2 ≤ g.blocksPerWay) (tag : ℕ) :
    g.setOf ((tag + 1) % 2 ^ (64 - g.blockSizeBits)) ≠ g.setOf tag := by
  have hbits := g.bits_lt
  have heven : 2 ∣ g.blocksPerWay := by
    obtain ⟨k, hk⟩ := g.blocksPerWay_pow
    rw [hk] at hsets ⊢
    exact dvd_pow_self 2 fun h0 => by simp [h0] at hsets
  have hwrap : 2 ∣ 2 ^ (64 - g.blockSizeBits) := dvd_pow_self 2 (by omega)
  intro heq
  -- the two tags differ in the last bit
  have hlast := congrArg (· % 2) heq
  simp only [setOf_eq_mod, Nat.mod_mod_of_dvd _ heven, Nat.mod_mod_of_dvd _ hwrap] at hlast
  omega

end Geometry

namespace Hierarchy

variable (H : Hierarchy ι)

/-- A device whose shortcut cannot fail. A prefetcher takes the next line, which is in
another set, and no line of the device is taken away meanwhile. -/
structure Tame (j : ι) : Prop where
  policy : (H.dev j).policy ≠ .fifo
  prefetcher : ∀ blockSize, (H.dev j).prefetcher = some blockSize →
    blockSize = (H.geometry j).blockSize ∧ 2 ≤ (H.geometry j).blocksPerWay ∧ H.Undisturbed j

/-- The events of a device between two states. None of them is a failure of the shortcut if the
shortcut is `ready`, and then it is `synced` in the end. If the device is `quiet` the events ask
for the tags in `tags`, the latest one first. -/
structure Passes (i : ι) (ready synced quiet : Prop) (tags : List ℕ) (d d' : DeviceState)
    (events : List LineEvent) : Prop where
  trace : Trace (H.geometry i) (H.dev i).policy d events d'
  drop : H.Undisturbed i → ∀ e ∈ events, ¬e.IsDrop
  sync : H.Tame i → ready → synced ∧ ∀ e ∈ events, ¬e.IsSlip
  asked : quiet → events.filterMap LineEvent.asked = tags

/-- The events of a device while another one is served. -/
abbrev Evolved (j : ι) (d d' : DeviceState) (events : List LineEvent) : Prop :=
  H.Passes j (d.InSync (H.geometry j)) (d'.InSync (H.geometry j)) False [] d d' events

/-- A request of this type is not followed by a prefetch. -/
def Quiet (i : ι) (type : TraceType) : Prop :=
  (H.dev i).prefetcher = none ∨ typeIsPrefetch type = true

/-- The request will not find the shortcut of the device out of step. A prefetch may come
while it is, but then it must not be for the tag of the shortcut. -/
def Ready (i : ι) (m : Memref) (d : DeviceState) : Prop :=
  d.InSync (H.geometry i) ∨
    d.fault = false ∧ typeIsPrefetch m.type = true ∧ H.SingleBlock i m ∧ H.firstTag i m ≠ d.lastTag

/-- The events of the device that a request is made on. -/
abbrev Served (i : ι) (m : Memref) (d d' : DeviceState) (events : List LineEvent) : Prop :=
  H.Passes i (H.Ready i m d) (d'.InSync (H.geometry i)) (H.Quiet i m.type)
    (H.requestedTags i m).reverse d d' events

/-- The loop does not look at the shortcut, so for a prefetch it may be out of step. -/
def Entered (i : ι) (type : TraceType) (d : DeviceState) : Prop :=
  d.InSync (H.geometry i) ∨ d.fault = false ∧ typeIsPrefetch type = true

/-- The events of a turn of the loop, for one tag. -/
abbrev Turned (i : ι) (type : TraceType) (tag : ℕ) (d d' : DeviceState)
    (events : List LineEvent) : Prop :=
  H.Passes i (H.Entered i type d) (d'.InSync (H.geometry i)) (H.Quiet i type) [tag] d d' events

/-- What the turns of a request have done so far. -/
abbrev Turns (i : ι) (type : TraceType) (done : List ℕ) (d d' : DeviceState)
    (events : List LineEvent) : Prop :=
  H.Passes i (H.Entered i type d) (done = [] ∧ d' = d ∨ d'.InSync (H.geometry i))
    (H.Quiet i type) done.reverse d d' events

/-- What a request on `i` does to the other devices. -/
def Apart (i : ι) (s s' : Store ι) : Prop :=
  ∀ j, j ≠ i → (∃ events, H.Evolved j (s j) (s' j) events) ∧
    (H.rank i ≤ H.rank j → H.Dropped j (s j) (s' j))

/-- What a request on `i` does. -/
def Serves (i : ι) (m : Memref) (s s' : Store ι) : Prop :=
  H.Apart i s s' ∧ ∃ events, H.Served i m (s i) (s' i) events

variable {H} {i j p : ι} {d d' d'' : DeviceState} {s s' s'' : Store ι}

/-- A next-line prefetch is for one line, in another set. -/
theorem Tame.prefetchRef (hi : H.Tame i) {blockSize : ℕ}
    (hpre : (H.dev i).prefetcher = some blockSize) {m : Memref} (hm : H.SingleBlock i m) :
    H.SingleBlock i (prefetchRef blockSize m) ∧
      (H.geometry i).setOf (H.firstTag i (prefetchRef blockSize m)) ≠
        (H.geometry i).setOf (H.firstTag i m) := by
  obtain ⟨rfl, hsets, -⟩ := hi.prefetcher blockSize hpre
  have hfirst : H.firstTag i (Simulator.prefetchRef (H.geometry i).blockSize m) =
      (H.firstTag i m + 1) % 2 ^ (64 - (H.geometry i).blockSizeBits) :=
    (H.geometry i).computeTag_add_blockSize m.addr
  have hfinal : H.finalTag i (Simulator.prefetchRef (H.geometry i).blockSize m) =
      (H.finalTag i m + 1) % 2 ^ (64 - (H.geometry i).blockSizeBits) := by
    have hend : m.addr + BitVec.ofNat 64 (H.geometry i).blockSize + m.size - 1 =
        m.addr + m.size - 1 + BitVec.ofNat 64 (H.geometry i).blockSize := by
      generalize BitVec.ofNat 64 (H.geometry i).blockSize = step
      bv_omega
    rw [finalTag, Simulator.prefetchRef, hend]
    exact (H.geometry i).computeTag_add_blockSize _
  refine ⟨?_, ?_⟩
  · rw [SingleBlock, hfirst, hfinal, show H.firstTag i m = H.finalTag i m from hm]
  · rw [hfirst]
    exact (H.geometry i).setOf_next_ne hsets _

/-! ### How the relations compose -/

section Passes

variable {ready ready' mid mid' synced synced' quiet quiet' : Prop} {tags tags' : List ℕ}
  {events events' : List LineEvent}

theorem Passes.imp (h : H.Passes i ready synced quiet tags d d' events) (hready : ready' → ready)
    (hsynced : ready' → synced → synced') (hquiet : quiet' → quiet) :
    H.Passes i ready' synced' quiet' tags d d' events where
  trace := h.trace
  drop := h.drop
  sync hi hr := (h.sync hi (hready hr)).imp_left (hsynced hr)
  asked hq := h.asked (hquiet hq)

theorem Passes.trans (h : H.Passes i ready mid quiet tags d d' events)
    (h' : H.Passes i mid' synced quiet tags' d' d'' events') (hmid : ready → mid → mid') :
    H.Passes i ready synced quiet (tags' ++ tags) d d'' (events' ++ events) where
  trace := h.trace.trans h'.trace
  drop hi e he := (List.mem_append.mp he).elim (h'.drop hi e) (h.drop hi e)
  sync hi hr := by
    obtain ⟨hd', hslip⟩ := h.sync hi hr
    obtain ⟨hd'', hslip'⟩ := h'.sync hi (hmid hr hd')
    exact ⟨hd'', fun e he => (List.mem_append.mp he).elim (hslip' e) (hslip e)⟩
  asked hq := by rw [List.filterMap_append, h.asked hq, h'.asked hq]

/-- A device that loses lines is not asked for any. -/
theorem Dropped.exists_passes (h : H.Dropped j d d') :
    ∃ events, H.Passes j (d.InSync (H.geometry j)) (d'.InSync (H.geometry j)) True [] d d'
      events := by
  by_cases hj : H.Undisturbed j
  · exact ⟨[], .keep .start (h.2 hj).sameBlocks, by simp,
      fun _ hd => ⟨h.1.inSync hd, by simp⟩, fun _ => rfl⟩
  · refine ⟨[.drop _], .drop .start h.1, fun hj' => absurd hj' hj, fun _ hd => ?_, fun _ => rfl⟩
    exact ⟨h.1.inSync hd, by simp [LineEvent.IsSlip]⟩

theorem Served.evolved {m : Memref} (h : H.Served i m d d' events) : H.Evolved i d d' events where
  trace := h.trace
  drop := h.drop
  sync hi hd := h.sync hi (.inl hd)
  asked := False.elim

theorem Turns.turn {type : TraceType} {done : List ℕ} {tag : ℕ}
    (h : H.Turns i type done d d' events) (h' : H.Turned i type tag d' d'' events') :
    H.Turns i type (done ++ [tag]) d d'' (events' ++ events) := by
  have hnext := h.trans h' (by
    rintro hd (⟨-, rfl⟩ | hsync)
    · exact hd
    · exact .inl hsync)
  rw [Turns, List.reverse_append, List.reverse_singleton]
  exact hnext.imp id (fun _ => .inr) id

theorem Turns.served {m : Memref} (h : H.Turns i m.type (H.requestedTags i m) d d' events) :
    H.Served i m d d' events := by
  refine h.imp (fun hready => hready.imp_right fun h => ⟨h.1, h.2.1⟩) ?_ id
  rintro hready (⟨hnone, rfl⟩ | hsync)
  · -- a request that touches no line leaves the shortcut as it is
    refine hready.resolve_right fun h => ?_
    rw [requestedTags_of_singleBlock h.2.2.1] at hnone
    cases hnone
  · exact hsync

end Passes

theorem Apart.of_dropped (h : ∀ j, j ≠ i → H.Dropped j (s j) (s' j)) : H.Apart i s s' := by
  intro j hj
  obtain ⟨events, hev⟩ := (h j hj).exists_passes
  exact ⟨⟨events, hev.imp id (fun _ => id) False.elim⟩, fun _ => h j hj⟩

theorem Apart.of_onlyStats (h : ∀ j, j ≠ i → (s j).OnlyStats (s' j)) : H.Apart i s s' :=
  .of_dropped fun j hj => .of_onlyStats (h j hj)

theorem Apart.trans (h : H.Apart i s s') (h' : H.Apart i s' s'') : H.Apart i s s'' := by
  intro j hj
  obtain ⟨⟨events, hev⟩, hdrop⟩ := h j hj
  obtain ⟨⟨events', hev'⟩, hdrop'⟩ := h' j hj
  exact ⟨⟨_, hev.trans hev' fun _ => id⟩, fun hle => (hdrop hle).trans (hdrop' hle)⟩

/-- Changes of the device itself do not count. -/
theorem Apart.modify [DecidableEq ι] (h : H.Apart i s s') (f : DeviceState → DeviceState) :
    H.Apart i s (s'.modify i f) := by
  intro j hj
  rw [Store.modify_of_ne _ hj]
  exact h j hj

/-- A request on the parent, seen from the child. -/
theorem Serves.apart_of_rank_lt {m : Memref} (h : H.Serves p m s s') (hlt : H.rank p < H.rank i) :
    H.Apart i s s' := by
  intro j hj
  by_cases hjp : j = p
  · subst hjp
    obtain ⟨events, hev⟩ := h.2
    exact ⟨⟨events, hev.evolved⟩, fun hle => absurd hle (by omega)⟩
  · obtain ⟨hev, hdrop⟩ := h.1 j hjp
    exact ⟨hev, fun hle => hdrop (by omega)⟩

variable [DecidableEq ι]

/-! ### Steps of a request -/

theorem countHit_onlyStats (s : Store ι) (i : ι) (m : Memref) (j : ι) :
    (s j).OnlyStats (H.countHit s i m j) := by
  have hself := onlyStats_modify_withStats s i (fun st => st.access m.type true) j
  cases hp : (H.dev i).parent with
  | none => simpa only [countHit, hp] using hself
  | some p => simpa only [countHit, hp] using hself.trans (onlyStats_modify_withStats _ p _ j)

theorem accessUpdate_with (g : Geometry) (policy : ReplacePolicy) (d : DeviceState)
    (stats : DeviceStats) (fault : Bool) (blockIdx : ℕ) (way : ℤ) :
    { d with stats := stats, fault := fault }.accessUpdate g policy blockIdx way =
      { d.accessUpdate g policy blockIdx way with stats := stats, fault := fault } := by
  cases policy with
  | lfu => rfl
  | fifo => rfl
  | lru =>
    simp only [DeviceState.accessUpdate]
    split_ifs <;> rfl

/-- The line is put into the device that has missed. -/
theorem fill_self (s : Store ι) (i : ι) (tag : ℕ) :
    let f := H.fill s i ((H.geometry i).computeBlockIdx tag) tag
    let r := (s i).put (H.geometry i) (H.dev i).policy tag
    (f.2 i).accessUpdate (H.geometry i) (H.dev i).policy ((H.geometry i).computeBlockIdx tag) f.1 =
      { r.2 with
        fault := r.2.fault || decide (((H.geometry i).computeBlockIdx tag : ℤ) + r.1 < 0) } := by
  simp only [fill, put, Store.modify_self]
  split_ifs with hinvalid hincl
  · rw [Store.modify_self, Store.modify_self, accessUpdate_with, accessUpdate_eq]
    rfl
  -- the children are made to drop the line, the device is not
  · rw [foldl_invalidate_self, Store.modify_self, accessUpdate_with, accessUpdate_eq]
    rfl
  · rw [Store.modify_self, accessUpdate_with, accessUpdate_eq]
    rfl

theorem fill_other (s : Store ι) (tag blockIdx : ℕ) (hj : j ≠ i) :
    H.Dropped j (s j) ((H.fill s i blockIdx tag).2 j) := by
  simp only [fill, Store.modify_of_ne _ hj]
  split_ifs with hinvalid hincl
  · simp only [Store.modify_of_ne _ hj]
    exact .of_onlyStats (.refl _)
  · have hdrop := dropped_foldl_invalidate
      (s.modify i fun _ => ((s i).replaceWhichWay (H.geometry i) (H.dev i).policy blockIdx).2) hincl
      (((s i).replaceWhichWay (H.geometry i) (H.dev i).policy blockIdx).2.blocks (blockNo blockIdx
        ((s i).replaceWhichWay (H.geometry i) (H.dev i).policy blockIdx).1)).tag j
    rwa [Store.modify_of_ne _ hj] at hdrop
  · simp only [Store.modify_of_ne _ hj]
    exact .of_onlyStats (.refl _)

theorem remember_self (s : Store ι) (i : ι) (tag blockIdx : ℕ) (way : ℤ) :
    remember s i tag blockIdx way i =
      { s i with lastTag := tag, lastWay := way, lastBlockIdx := blockIdx } :=
  Store.modify_self _ _ _

/-- A turn that finds the line. -/
theorem accessBlock_hit (req : Store ι → ι → Memref → CacheResult × Store ι) (s : Store ι) (i : ι)
    {tag way : ℕ} (hvalid : tag ≠ tagInvalid) (m : Memref) (res : CacheResult)
    (hfound : (s i).findWay (H.geometry i) ((H.geometry i).computeBlockIdx tag) tag = some way) :
    H.Apart i s (H.accessBlock req s i tag m res).2 ∧
      H.Turned i m.type tag (s i) ((H.accessBlock req s i tag m res).2 i) [.hit tag way] := by
  have hcount := countHit_onlyStats (H := H) s i m
  have hway : way < (H.geometry i).associativity :=
    List.mem_range.mp (List.mem_of_find?_eq_some hfound)
  have htag : ((s i).blocks ((H.geometry i).computeBlockIdx tag + way)).tag = tag := by
    simpa using List.find?_some hfound
  simp only [accessBlock, hfound]
  refine ⟨((Apart.of_onlyStats fun j _ => hcount j).modify _).modify _, ?_⟩
  rw [remember_self, Store.modify_self]
  have hheld :
      ((H.countHit s i m i).blocks ((H.geometry i).computeBlockIdx tag + way)).tag = tag := by
    rw [(hcount i).sameBlocks.1]
    exact htag
  refine ⟨.keep (.hit (.keep .start (hcount i).sameBlocks) hway hvalid hheld) ⟨rfl, rfl⟩,
    by simp [LineEvent.IsDrop], fun _ hd => ⟨?_, by simp [LineEvent.IsSlip]⟩, fun _ => rfl⟩
  have hfault : (s i).fault = false := hd.elim InSync.fault And.left
  refine inSync_remember ?_ hway ?_
  · rw [accessUpdate_eq, hcount i]
    exact hfault
  · rw [accessUpdate_tag]
    exact hheld

/-- The parent is asked: the device itself at most loses lines meanwhile. -/
theorem askParent_apart {req : Store ι → ι → Memref → CacheResult × Store ι} {m : Memref}
    (hparent : ∀ p, (H.dev i).parent = some p → ∀ s, H.Serves p m s (req s p m).2) (s : Store ι)
    (res : CacheResult) :
    H.Apart i s (H.askParent req s i m res).2 ∧
      H.Dropped i (s i) ((H.askParent req s i m res).2 i) := by
  have hself := onlyStats_modify_withStats s i fun st => st.access m.type false
  cases hp : (H.dev i).parent with
  | none =>
    simp only [askParent, hp]
    exact ⟨.of_onlyStats fun j _ => hself j, .of_onlyStats (hself i)⟩
  | some p =>
    have hlt := H.rank_parent_lt i p hp
    have hne : i ≠ p := by
      rintro rfl
      omega
    -- both have counted the miss when the parent gets the request
    have hcounted (j : ι) := (hself j).trans
      (onlyStats_modify_withStats _ p (fun st => st.childAccess false) j)
    have hserves := hparent p hp
      ((s.modify i fun d => d.withStats fun st => st.access m.type false).modify p
        fun d => d.withStats fun st => st.childAccess false)
    simp only [askParent, hp]
    exact ⟨(Apart.of_onlyStats fun j _ => hcounted j).trans (hserves.apart_of_rank_lt hlt),
      (Dropped.of_onlyStats (hcounted i)).trans ((hserves.1 i hne).2 hlt.le)⟩

omit [DecidableEq ι] in
/-- The prefetch comes while the shortcut may still name a line of the set that has just been
written. It leaves this set alone. -/
theorem prefetch_apart {req : Store ι → ι → Memref → CacheResult × Store ι} {m : Memref}
    (hm : H.SingleBlock i m)
    (hprefetch : ∀ blockSize, (H.dev i).prefetcher = some blockSize →
      typeIsPrefetch m.type = false →
        ∀ s, H.Serves i (prefetchRef blockSize m) s (req s i (prefetchRef blockSize m)).2)
    (s : Store ι) :
    H.Apart i s (H.prefetch req s i m) ∧ ∃ events,
      Trace (H.geometry i) (H.dev i).policy (s i) events (H.prefetch req s i m i) ∧
      (H.Undisturbed i → ∀ e ∈ events, ¬e.IsDrop) ∧
      (H.Quiet i m.type → events = []) ∧
      (H.Tame i → (s i).fault = false →
        (typeIsPrefetch m.type = false →
          (H.geometry i).setOf (s i).lastTag ≠ (H.geometry i).setOf (H.firstTag i m) →
            (s i).InSync (H.geometry i)) →
        (H.prefetch req s i m i).fault = false ∧ (∀ e ∈ events, ¬e.IsSlip) ∧
        ∀ way < (H.geometry i).associativity,
          ((H.prefetch req s i m i).blocks
            ((H.geometry i).computeBlockIdx (H.firstTag i m) + way)).tag =
          ((s i).blocks ((H.geometry i).computeBlockIdx (H.firstTag i m) + way)).tag) := by
  by_cases hquiet : H.Quiet i m.type
  · have hnone : H.prefetch req s i m = s := by
      rcases hquiet with hpre | htype
      · simp [prefetch, hpre]
      · simp [prefetch, htype]
    rw [hnone]
    exact ⟨.of_onlyStats fun _ _ => .refl _, [], .start, by simp, fun _ => rfl,
      fun _ hfault _ => ⟨hfault, by simp, fun _ _ => rfl⟩⟩
  · obtain ⟨blockSize, hpre⟩ := Option.ne_none_iff_exists'.mp fun h => hquiet (.inl h)
    have htype : typeIsPrefetch m.type = false := by
      simpa using fun h => hquiet (.inr h)
    obtain ⟨hapart, events, hserved⟩ := hprefetch blockSize hpre htype s
    have hsome : H.prefetch req s i m = (req s i (prefetchRef blockSize m)).2 := by
      simp [prefetch, hpre, htype]
    rw [hsome]
    refine ⟨hapart, events, hserved.trace, hserved.drop, fun h => absurd h hquiet, ?_⟩
    intro hi hfault hsync
    obtain ⟨hsingle, hset⟩ := hi.prefetchRef hpre hm
    obtain ⟨-, -, hund⟩ := hi.prefetcher blockSize hpre
    -- either the shortcut is in step, or the prefetch is for another line
    have hready : H.Ready i (prefetchRef blockSize m) (s i) := by
      by_cases hlast : H.firstTag i (prefetchRef blockSize m) = (s i).lastTag
      · exact .inl (hsync htype (hlast ▸ hset))
      · exact .inr ⟨hfault, rfl, hsingle, hlast⟩
    obtain ⟨hin, hslip⟩ := hserved.sync hi hready
    refine ⟨hin.fault, hslip, fun way hway => ?_⟩
    refine hserved.trace.tag_eq_of_setOf_ne hi.policy (hserved.drop hund) hway fun tag htag => ?_
    rw [hserved.asked (.inr rfl), requestedTags_of_singleBlock hsingle] at htag
    simp only [List.reverse_singleton, List.mem_singleton] at htag
    rw [htag]
    exact hset

/-- The line is put into the device, and the others at most lose lines. -/
theorem fill_apart (s : Store ι) (i : ι) (tag : ℕ) :
    let f := H.fill s i ((H.geometry i).computeBlockIdx tag) tag
    let r := (s i).put (H.geometry i) (H.dev i).policy tag
    let s' := f.2.modify i fun d => d.accessUpdate (H.geometry i) (H.dev i).policy
      ((H.geometry i).computeBlockIdx tag) f.1
    H.Apart i s s' ∧ r.2.SameBlocks (s' i) ∧ (H.Tame i → s' i = r.2) := by
  intro f r s'
  have hself : s' i = _ := (Store.modify_self _ _ _).trans (fill_self (H := H) s i tag)
  refine ⟨(Apart.of_dropped fun j hj => fill_other s tag _ hj).modify _, ?_, fun hi => ?_⟩
  · rw [hself]
    exact ⟨rfl, rfl⟩
  · -- a way that is given up is not negative
    obtain ⟨way, -, hway, -⟩ := (s i).exists_putBlock (g := H.geometry i) hi.policy tag
    have hpos : ¬((H.geometry i).computeBlockIdx tag : ℤ) + r.1 < 0 := by
      rw [show r.1 = way from hway]
      omega
    rw [hself, decide_eq_false hpos, Bool.or_false]

/-- A turn that does not find the line. -/
theorem accessBlock_miss {req : Store ι → ι → Memref → CacheResult × Store ι} {m : Memref}
    (hm : H.SingleBlock i m)
    (hparent : ∀ p, (H.dev i).parent = some p → ∀ s, H.Serves p m s (req s p m).2)
    (hprefetch : ∀ blockSize, (H.dev i).prefetcher = some blockSize →
      typeIsPrefetch m.type = false →
        ∀ s, H.Serves i (prefetchRef blockSize m) s (req s i (prefetchRef blockSize m)).2)
    (s : Store ι) (res : CacheResult)
    (hmiss : (s i).findWay (H.geometry i) ((H.geometry i).computeBlockIdx (H.firstTag i m))
      (H.firstTag i m) = none) :
    H.Apart i s (H.accessBlock req s i (H.firstTag i m) m res).2 ∧ ∃ events,
      H.Turned i m.type (H.firstTag i m) (s i)
        ((H.accessBlock req s i (H.firstTag i m) m res).2 i) events := by
  have hvalid : H.firstTag i m ≠ tagInvalid := (H.geometry i).computeTag_ne_tagInvalid _
  obtain ⟨hapart₁, hdrop₁⟩ := askParent_apart hparent s res
  simp only [accessBlock, hmiss]
  set tag := H.firstTag i m
  set s₁ := (H.askParent req s i m res).2
  obtain ⟨hapart₂, hself₂⟩ := fill_apart (H := H) s₁ i tag
  set f := H.fill s₁ i ((H.geometry i).computeBlockIdx tag) tag
  set s₂ := f.2.modify i fun d =>
    d.accessUpdate (H.geometry i) (H.dev i).policy ((H.geometry i).computeBlockIdx tag) f.1
  obtain ⟨hapart₃, events₃, htrace₃, hundrop₃, hquiet₃, htame₃⟩ := prefetch_apart hm hprefetch s₂
  obtain ⟨events₁, hev₁⟩ := hdrop₁.exists_passes
  have hasked₁ := hev₁.asked trivial
  refine ⟨((hapart₁.trans hapart₂).trans hapart₃).modify _,
    events₃ ++ (.put tag f.1 :: events₁), ?_⟩
  rw [remember_self]
  refine ⟨?_, ?_, ?_, ?_⟩
  · have hnot := hdrop₁.1.not_holds hvalid (((s i).findWay_eq_none_iff _ tag).mp hmiss)
    exact .keep (.trans (.keep (.put hev₁.trace hnot hvalid) hself₂.1) htrace₃) ⟨rfl, rfl⟩
  · intro hi e he
    simp only [List.mem_append, List.mem_cons] at he
    rcases he with he | rfl | he
    · exact hundrop₃ hi e he
    · simp [LineEvent.IsDrop]
    · exact hev₁.drop hi e he
  · intro hi hd
    have hs₂ := hself₂.2 hi
    have hfault₁ : (s₁ i).fault = false := hdrop₁.1.fault.trans (hd.elim InSync.fault And.left)
    have hlast₂ : (s₂ i).lastTag = (s₁ i).lastTag := by rw [hs₂, put_eq]
    obtain ⟨hfault₃, hslip₃, hkept⟩ := htame₃ hi (by rw [hs₂, put_eq]; exact hfault₁)
      fun htype hset => by
        have hin := hdrop₁.1.inSync (hd.resolve_right fun h => by simp [htype] at h)
        rw [hs₂]
        exact hin.put hi.policy fun _ => hlast₂ ▸ hset
    obtain ⟨way, hway, hfst, hblock⟩ := (s₁ i).exists_putBlock (g := H.geometry i) hi.policy tag
    refine ⟨?_, ?_⟩
    · rw [show f.1 = (way : ℤ) from hfst]
      refine inSync_remember hfault₃ hway ((hkept way hway).trans ?_)
      rw [hs₂, put_tag, if_pos hblock.symm]
    · intro e he
      simp only [List.mem_append, List.mem_cons] at he
      rcases he with he | rfl | he
      · exact hslip₃ e he
      · simp [LineEvent.IsSlip]
      · rintro ⟨t, rfl⟩
        exact absurd (List.filterMap_eq_nil_iff.mp hasked₁ _ he) (by simp [LineEvent.asked])
  · intro hquiet
    simp [hquiet₃ hquiet, hasked₁, LineEvent.asked]

/-! ### Requests -/

/-- The short path on the device itself. -/
theorem shortPath_self (s : Store ι) (i : ι) (m : Memref) :
    ∃ stats, (H.shortPath s i m).2 i = { (s i).accessUpdate (H.geometry i) (H.dev i).policy
        (s i).lastBlockIdx (s i).lastWay with
      stats := stats
      fault := (s i).fault || !decide ((s i).lastTag ≠ tagInvalid ∧
        ((s i).blocks (blockNo (s i).lastBlockIdx (s i).lastWay)).tag = (s i).lastTag) } := by
  have hcount := countHit_onlyStats (H := H) (s.modify i fun d => { d with
    fault := d.fault || !decide ((s i).lastTag ≠ tagInvalid ∧
      ((s i).blocks (blockNo (s i).lastBlockIdx (s i).lastWay)).tag = (s i).lastTag) }) i m i
  simp only [shortPath, Store.modify_self] at hcount ⊢
  rw [hcount]
  exact ⟨_, accessUpdate_with (H.geometry i) (H.dev i).policy (s i) _ _ _ _⟩

/-- The short path is a hit, or the shortcut has failed. -/
theorem shortPath_serves {m : Memref} (hm : H.SingleBlock i m) (s : Store ι)
    (hlast : H.firstTag i m = (s i).lastTag) : H.Serves i m s (H.shortPath s i m).2 := by
  have hvalid : (s i).lastTag ≠ tagInvalid := by
    rw [← hlast]
    exact (H.geometry i).computeTag_ne_tagInvalid _
  have hasked : (H.requestedTags i m).reverse = [(s i).lastTag] := by
    rw [requestedTags_of_singleBlock hm, hlast]
    rfl
  obtain ⟨stats, hself⟩ := shortPath_self (H := H) s i m
  refine ⟨?_, ?_⟩
  · simp only [shortPath]
    refine Apart.modify (Apart.trans ?_ (.of_onlyStats fun j _ => countHit_onlyStats _ i m j)) _
    exact Apart.modify (.of_onlyStats fun _ _ => .refl _) _
  · rw [hself]
    by_cases hin : (s i).lastBlockIdx = (H.geometry i).computeBlockIdx (s i).lastTag ∧
        ∃ way < (H.geometry i).associativity, (s i).lastWay = way ∧
          ((s i).blocks ((H.geometry i).computeBlockIdx (s i).lastTag + way)).tag = (s i).lastTag
    · obtain ⟨hidx, way, hway, hlastWay, htag⟩ := hin
      rw [hidx, hlastWay, blockNo_natCast]
      refine ⟨[.hit (s i).lastTag way], .keep (.hit .start hway hvalid htag) ⟨rfl, rfl⟩,
        by simp [LineEvent.IsDrop], fun _ hready => ⟨?_, by simp [LineEvent.IsSlip]⟩,
        fun _ => hasked.symm⟩
      have hsync : (s i).InSync (H.geometry i) := hready.resolve_right fun h => h.2.2.2 hlast
      have hnext : ((s i).accessUpdate (H.geometry i) (H.dev i).policy
          ((H.geometry i).computeBlockIdx (s i).lastTag) way).InSync (H.geometry i) :=
        hsync.accessUpdate _ _
      refine ⟨?_, hnext.shortcut⟩
      simp [hsync.fault, hvalid, htag]
    · refine ⟨[.slip (s i).lastTag], .keep (.slip _ _ _ .start) ⟨rfl, rfl⟩,
        by simp [LineEvent.IsDrop], fun _ hready => ?_, fun _ => hasked.symm⟩
      have hsync : (s i).InSync (H.geometry i) := hready.resolve_right fun h => h.2.2.2 hlast
      exact absurd (hsync.shortcut hvalid) hin

theorem requestStep_serves {req : Store ι → ι → Memref → CacheResult × Store ι} {m : Memref}
    (hparent : ∀ piece, piece.type = m.type → ∀ p, (H.dev i).parent = some p →
      ∀ s, H.Serves p piece s (req s p piece).2)
    (hprefetch : ∀ piece blockSize, (H.dev i).prefetcher = some blockSize →
      typeIsPrefetch m.type = false →
        ∀ s, H.Serves i (prefetchRef blockSize piece) s (req s i (prefetchRef blockSize piece)).2)
    (s : Store ι) : H.Serves i m s (H.requestStep req s i m).2 := by
  by_cases hshort : H.firstTag i m = H.finalTag i m ∧ H.firstTag i m = (s i).lastTag
  · rw [requestStep, if_pos hshort]
    exact shortPath_serves hshort.1 s hshort.2
  · have hturns := requestStep_induction req (s := s) (m := m)
      (P := fun done s' => H.Apart i s s' ∧ ∃ events, H.Turns i m.type done (s i) (s' i) events)
      ⟨.of_onlyStats fun _ _ => .refl _, [], .start, by simp, fun _ _ => ⟨.inl ⟨rfl, rfl⟩, by simp⟩,
        fun _ => rfl⟩
      (fun hm hlast => absurd ⟨hm, hlast⟩ hshort) ?_
    · obtain ⟨hapart, events, h⟩ := hturns
      exact ⟨hapart, events, h.served⟩
    · rintro done s' piece res hpiece htype ⟨hapart, events, hdone⟩
      obtain ⟨hapart', events', hturn⟩ : H.Apart i s' _ ∧ ∃ events',
          H.Turned i piece.type (H.firstTag i piece) (s' i) _ events' := by
        cases hfound : (s' i).findWay (H.geometry i)
            ((H.geometry i).computeBlockIdx (H.firstTag i piece)) (H.firstTag i piece) with
        | none =>
          exact accessBlock_miss hpiece (hparent piece htype)
            (fun blockSize hpre hno => hprefetch piece blockSize hpre (htype ▸ hno)) s' res hfound
        | some way =>
          obtain ⟨hapart', hturn⟩ := accessBlock_hit req s' i
            ((H.geometry i).computeTag_ne_tagInvalid _) piece res hfound
          exact ⟨hapart', _, hturn⟩
      exact ⟨hapart.trans hapart', _, hdone.turn (htype ▸ hturn)⟩

/-- **What a request does**, at any depth of the recursion. -/
theorem requestFuel_serves (n : ℕ) (s : Store ι) (i : ι) (m : Memref)
    (hn : H.rank i + (if typeIsPrefetch m.type then 1 else 2) ≤ n) :
    H.Serves i m s (H.requestFuel n s i m).2 := by
  induction n generalizing s i m with
  | zero => split_ifs at hn <;> omega
  | succ n ih =>
    refine requestStep_serves ?_ ?_ s
    · intro piece htype p hp s
      have hlt := H.rank_parent_lt i p hp
      exact ih s p piece (by rw [htype]; omega)
    · intro piece blockSize _ htype s
      rw [htype] at hn
      refine ih s i (prefetchRef blockSize piece) ?_
      simp only [prefetchRef, typeIsPrefetch] at hn ⊢
      simp at hn ⊢
      omega

theorem request_serves (s : Store ι) (i : ι) (m : Memref) :
    H.Serves i m s (H.request s i m).2 :=
  requestFuel_serves _ s i m (by split_ifs <;> omega)

end Hierarchy

end SagePTE.Simulator
