import BlazeKV.Lib.Dense
import BlazeKV.Lib.Machine
import BlazeKV.Spec.Arena

/-! Runs of the slab allocator with the blocks that its callers hold. The pieces of the slabs, in
use or free, never overlap. -/

namespace BlazeKV.SlabAllocator

open Lib

/-- A block in a caller's hands, with the size it was requested with. -/
structure Block where
  addr : ℕ
  bytes : ℕ
  deriving DecidableEq

/-- The size of the blocks that serve small requests of `bytes`. -/
def classBytes (bytes : ℕ) : ℕ := (sizeClass (if bytes = 0 then 1 else bytes) + 1) * kAlign

namespace Block

def Small (b : Block) : Prop := b.bytes ≤ kMaxSmall

instance : DecidablePred Small := fun b => inferInstanceAs (Decidable (b.bytes ≤ kMaxSmall))

/-- What a small block takes up. -/
def span (b : Block) : Span := ⟨b.addr, classBytes b.bytes⟩

/-- What was requested. -/
def requested (b : Block) : Span := ⟨b.addr, b.bytes⟩

end Block

structure Heap where
  allocator : SlabAllocator
  ram : Ram
  live : List Block

inductive Call where
  | allocate (bytes fresh : ℕ)
  | deallocate (p bytes : ℕ)
  /-- A byte that a caller, or anyone else, writes. -/
  | write (p : ℕ) (v : UInt8)

namespace Heap

/-- A call, with the address that `allocate` returns. -/
def step (h : Heap) : Call → Heap × Option ℕ
  | .allocate bytes fresh =>
    let r := h.allocator.allocate h.ram bytes fresh
    (⟨r.1, r.2.1, h.live ++ [⟨r.2.2, bytes⟩]⟩, some r.2.2)
  | .deallocate p bytes =>
    let r := h.allocator.deallocate h.ram p bytes
    (⟨r.1, r.2, if p = 0 then h.live else h.live.erase ⟨p, bytes⟩⟩, none)
  | .write p v => ({ h with ram := Function.update h.ram p v }, none)

def start (m : Ram) : Heap := ⟨.empty, m, []⟩

def smallLive (h : Heap) : List Block := h.live.filter fun b => b.Small

def slabSpans (h : Heap) : List Span := h.allocator.slabs.map fun slab => ⟨slab, kSlabSize⟩

/-- What has been taken from `malloc` and not been given back. -/
def regions (h : Heap) : List Span :=
  h.slabSpans ++ (h.live.filter fun b => ¬b.Small).map Block.requested

/-- Regions are fresh, blocks are freed as they were requested, and nobody writes into a slab
except into a block he holds. -/
def Valid (h : Heap) : Call → Prop
  | .allocate bytes fresh =>
    if bytes ≤ kMaxSmall then
      h.allocator.freeLists.getD (sizeClass (if bytes = 0 then 1 else bytes)) 0 = 0 →
      NewRegion h.regions ⟨fresh, kSlabSize⟩
    else NewRegion h.regions ⟨fresh, bytes⟩
  | .deallocate p bytes => p = 0 ∨ ⟨p, bytes⟩ ∈ h.live
  | .write p _ =>
    (∃ b ∈ h.live, Span.Within ⟨p, 1⟩ b.requested) ∨ ∀ r ∈ h.slabSpans, Span.Apart ⟨p, 1⟩ r

end Heap

/-! Size classes. -/

theorem sizeClass_lt {bytes : ℕ} (h : bytes ≤ kMaxSmall) : sizeClass bytes < kNumClasses := by
  unfold kMaxSmall at h
  unfold sizeClass kNumClasses kMaxSmall kAlign
  omega

theorem le_classBytes (bytes : ℕ) : bytes ≤ classBytes bytes := by
  unfold classBytes sizeClass kAlign
  split_ifs <;> omega

/-- A node of a free list, with its class. -/
structure Node where
  cls : ℕ
  addr : ℕ

namespace Node

def span (n : Node) : Span := ⟨n.addr, (n.cls + 1) * kAlign⟩

/-- The link at the start of a node. -/
theorem link_within (n : Node) : Span.Within ⟨n.addr, 8⟩ n.span := by
  refine ⟨le_rfl, Nat.add_le_add_left ?_ _⟩
  show 8 ≤ (n.cls + 1) * 16
  omega

end Node

def nodes (free : List Node) (cls : ℕ) : List ℕ := (free.filter fun n => n.cls = cls).map Node.addr

theorem mem_nodes {free : List Node} {cls p : ℕ} : p ∈ nodes free cls ↔ ⟨cls, p⟩ ∈ free := by
  simp only [nodes, List.mem_map, List.mem_filter, decide_eq_true_eq]
  constructor
  · rintro ⟨⟨cls, p⟩, ⟨hmem, rfl⟩, rfl⟩
    exact hmem
  · exact fun h => ⟨_, ⟨h, rfl⟩, rfl⟩

/-- The blocks of all slabs: those in use, and the free ones. -/
def pieces (h : Heap) (free : List Node) : List Span := h.smallLive.map Block.span ++ free.map Node.span

/-- A piece is aligned and lies in one slab. -/
def Placed (slabs : List ℕ) (s : Span) : Prop :=
  16 ∣ s.start ∧ ∃ slab ∈ slabs, s.Within ⟨slab, kSlabSize⟩

structure Inv (h : Heap) (free : List Node) : Prop where
  length : h.allocator.freeLists.length = kNumClasses
  chains : ∀ cls < kNumClasses, Chained h.ram (h.allocator.freeLists.getD cls 0) (nodes free cls)
  apart : (pieces h free).Pairwise Span.Apart
  placed : ∀ s ∈ pieces h free, Placed h.allocator.slabs s
  regions : h.regions.Pairwise Span.Apart
  owned : ∀ r ∈ h.regions, r.start ≠ 0 ∧ r.stop ≤ 2 ^ 64
  bytes : h.allocator.liveBytes = (h.smallLive.map fun b => classBytes b.bytes).sum

theorem inv_start (m : Ram) : Inv (Heap.start m) [] where
  length := List.length_replicate
  chains cls hcls := by simp [Heap.start, empty, nodes, Chained, hcls]
  apart := .nil
  placed s hs := absurd hs List.not_mem_nil
  regions := .nil
  owned r hr := absurd hr List.not_mem_nil
  bytes := rfl

section Facts

variable {h : Heap} {free : List Node} {s : Span} {n : Node} {b : Block} {slab : ℕ}

theorem slab_mem (hslab : slab ∈ h.allocator.slabs) : ⟨slab, kSlabSize⟩ ∈ h.slabSpans :=
  List.mem_map_of_mem (f := fun slab => (⟨slab, kSlabSize⟩ : Span)) hslab

theorem slab_region (hslab : slab ∈ h.allocator.slabs) : ⟨slab, kSlabSize⟩ ∈ h.regions :=
  List.mem_append_left _ (slab_mem hslab)

theorem node_piece (hn : n ∈ free) : n.span ∈ pieces h free :=
  List.mem_append_right _ (List.mem_map_of_mem hn)

theorem block_piece (hb : b ∈ h.smallLive) : b.span ∈ pieces h free :=
  List.mem_append_left _ (List.mem_map_of_mem hb)

theorem Inv.bounds (hI : Inv h free) (hs : s ∈ pieces h free) : s.start ≠ 0 ∧ s.stop ≤ 2 ^ 64 := by
  obtain ⟨-, slab, hslab, hin⟩ := hI.placed s hs
  obtain ⟨hpos, hstop⟩ := hI.owned _ (slab_region hslab)
  exact ⟨((Nat.pos_of_ne_zero hpos).trans_le hin.1).ne', hin.2.trans hstop⟩

theorem Inv.addr_lt (hI : Inv h free) (hn : n ∈ free) : n.addr < 2 ^ 64 :=
  (Nat.lt_add_of_pos_right (Nat.mul_pos n.cls.succ_pos (by decide))).trans_le
  (hI.bounds (node_piece hn)).2

theorem Inv.apart_blocks (hI : Inv h free) : h.smallLive.Pairwise fun b c => b.span.Apart c.span :=
  List.pairwise_map.1 (List.pairwise_append.1 hI.apart).1

theorem Inv.apart_nodes (hI : Inv h free) : free.Pairwise fun n n' => n.span.Apart n'.span :=
  List.pairwise_map.1 (List.pairwise_append.1 hI.apart).2.1

theorem Inv.apart_block_node (hI : Inv h free) (hb : b ∈ h.smallLive) (hn : n ∈ free) :
    b.span.Apart n.span :=
  (List.pairwise_append.1 hI.apart).2.2 _ (List.mem_map_of_mem hb) _ (List.mem_map_of_mem hn)

/-- What lies outside of the slabs is apart from all pieces. -/
theorem Inv.apart_outside (hI : Inv h free) (hout : ∀ r ∈ h.slabSpans, Span.Apart s r) {t : Span}
    (ht : t ∈ pieces h free) :
    Span.Apart s t := by
  obtain ⟨-, slab, hslab, hin⟩ := hI.placed t ht
  exact (hout _ (slab_mem hslab)).mono ⟨le_rfl, le_rfl⟩ hin

/-- Only the links of the free nodes matter. -/
theorem Inv.frame (hI : Inv h free) {m : Ram} (hm : ∀ n ∈ free, AgreeOn h.ram m ⟨n.addr, 8⟩) :
    Inv { h with ram := m } free where
  length := hI.length
  chains cls hcls := (hI.chains cls hcls).congr fun _ ha => hm _ (mem_nodes.1 ha)
  apart := hI.apart
  placed := hI.placed
  regions := hI.regions
  owned := hI.owned
  bytes := hI.bytes

theorem agreeOn_update {m : Ram} {p : ℕ} {v : UInt8} (h : Span.Apart ⟨p, 1⟩ s) :
    AgreeOn m (Function.update m p v) s := by
  intro a h1 h2
  refine Function.update_of_ne ?_ _ _
  rintro rfl
  unfold Span.Apart Span.stop at h
  unfold Span.stop at h2
  dsimp only at h h2
  omega

theorem Inv.write (hI : Inv h free) {p : ℕ} {v : UInt8} (hv : h.Valid (.write p v)) :
    Inv (h.step (.write p v)).1 free := by
  refine hI.frame fun n hn => agreeOn_update ?_
  suffices hs : Span.Apart ⟨p, 1⟩ n.span from hs.mono ⟨le_rfl, le_rfl⟩ n.link_within
  rcases hv with ⟨b, hb, hin⟩ | hout
  · by_cases hsmall : b.Small
    · have hmem : b ∈ h.smallLive := List.mem_filter.2 ⟨hb, decide_eq_true hsmall⟩
      refine (hI.apart_block_node hmem hn).mono ⟨hin.1, hin.2.trans ?_⟩ ⟨le_rfl, le_rfl⟩
      exact Nat.add_le_add_left (le_classBytes b.bytes) b.addr
    · have hmem : b.requested ∈ (h.live.filter fun b => ¬b.Small).map Block.requested :=
        List.mem_map_of_mem (List.mem_filter.2 ⟨hb, decide_eq_true hsmall⟩)
      refine (hI.apart_outside (fun r hr => ?_) (node_piece hn)).mono hin ⟨le_rfl, le_rfl⟩
      exact ((List.pairwise_append.1 hI.regions).2.2 r hr _ hmem).symm
  · exact hI.apart_outside hout (node_piece hn)

end Facts

section Refill

variable {h : Heap} {free : List Node} {m : Ram} {slab obj cls : ℕ}

/-- After `n` rounds `n` objects are chained, and nothing else has been written. -/
theorem linked_objects (m : Ram) (hobj : 8 ≤ obj) (hslab : slab ≠ 0) {n : ℕ}
    (hstop : slab + n * obj ≤ 2 ^ 64) :
    let r := (List.range n).foldl (link slab obj) (m, 0)
    Chained r.1 r.2 ((List.range n).reverse.map fun i => slab + i * obj) ∧
      ∀ s, Span.Apart s ⟨slab, n * obj⟩ → AgreeOn m r.1 s := by
  induction n with
  | zero => exact ⟨rfl, fun _ _ _ _ _ => rfl⟩
  | succ n ih =>
    have hlast : slab + n * obj + obj ≤ 2 ^ 64 := by
      rw [Nat.add_assoc, ← Nat.succ_mul]
      exact hstop
    obtain ⟨hchain, hagree⟩ := ih ((Nat.le_add_right _ obj).trans hlast)
    have hbefore : ∀ a ∈ (List.range n).reverse.map fun i => slab + i * obj,
      a + 8 ≤ slab + n * obj := by
      intro a ha
      obtain ⟨i, hi, rfl⟩ := List.mem_map.1 ha
      have hle : (i + 1) * obj ≤ n * obj := Nat.mul_le_mul_right obj (by simpa using hi)
      rw [Nat.succ_mul] at hle
      omega
    dsimp only
    rw [List.range_succ, List.foldl_append, List.foldl_cons, List.foldl_nil, List.reverse_append,
      List.map_append]
    constructor
    · refine hchain.push (by omega) (hchain.head_lt fun a ha => ?_) fun a ha => .inl (hbefore a ha)
      have := hbefore a ha
      omega
    · intro s hs a h1 h2
      have hwhole : slab + n * obj + obj = slab + (n + 1) * obj := by rw [Nat.add_assoc, ← Nat.succ_mul]
      have hinit : Span.Within ⟨slab, n * obj⟩ ⟨slab, (n + 1) * obj⟩ :=
        ⟨le_rfl, ((Nat.le_add_right _ obj).trans_eq hwhole : slab + n * obj ≤ slab + (n + 1) * obj)⟩
      have hnode : Span.Within ⟨slab + n * obj, 8⟩ ⟨slab, (n + 1) * obj⟩ :=
        ⟨Nat.le_add_right _ _,
          ((Nat.add_le_add_left hobj _).trans_eq hwhole : slab + n * obj + 8 ≤ slab + (n + 1) * obj)⟩
      exact (agreeOn_store64 (hs.mono ⟨le_rfl, le_rfl⟩ hnode) a h1 h2).trans
        (hagree s (hs.mono ⟨le_rfl, le_rfl⟩ hinit) a h1 h2)

/-- The nodes of a new slab in the order of the list. -/
def newNodes (cls slab : ℕ) : List Node :=
  (List.range (kSlabSize / ((cls + 1) * kAlign))).reverse.map fun i =>
    ⟨cls, slab + i * ((cls + 1) * kAlign)⟩

theorem nodes_append (free free' : List Node) (cls : ℕ) :
    nodes (free ++ free') cls = nodes free cls ++ nodes free' cls := by
  simp [nodes]

theorem nodes_newNodes : nodes (newNodes cls slab) cls =
    (List.range (kSlabSize / ((cls + 1) * kAlign))).reverse.map fun i =>
      slab + i * ((cls + 1) * kAlign) := by
  simp [nodes, newNodes, List.filter_map, Function.comp_def]

theorem nodes_newNodes_ne {cls' : ℕ} (hne : cls ≠ cls') : nodes (newNodes cls slab) cls' = [] := by
  simp [nodes, newNodes, List.filter_map, Function.comp_def, hne]

/-- New nodes do not overlap, and lie in the slab. -/
theorem newNodes_apart : ((newNodes cls slab).map Node.span).Pairwise Span.Apart := by
  rw [newNodes, List.map_map, List.map_reverse, List.pairwise_reverse, List.pairwise_map]
  refine List.pairwise_lt_range.imp fun {i j} hij => .inr ?_
  have hle : (i + 1) * ((cls + 1) * kAlign) ≤ j * ((cls + 1) * kAlign) := Nat.mul_le_mul_right _ hij
  rw [Nat.succ_mul] at hle
  show slab + i * ((cls + 1) * kAlign) + (cls + 1) * kAlign ≤ slab + j * ((cls + 1) * kAlign)
  omega

theorem newNodes_placed (hslab : 16 ∣ slab) {s : Span} (hs : s ∈ (newNodes cls slab).map Node.span) :
    16 ∣ s.start ∧ s.Within ⟨slab, kSlabSize⟩ := by
  obtain ⟨n, hn, rfl⟩ := List.mem_map.1 hs
  obtain ⟨i, hi, rfl⟩ := List.mem_map.1 hn
  have hle : (i + 1) * ((cls + 1) * kAlign) ≤ kSlabSize :=
    (Nat.mul_le_mul_right _ (by simpa using hi)).trans (Nat.div_mul_le_self _ _)
  rw [Nat.succ_mul] at hle
  refine ⟨Nat.dvd_add hslab (Dvd.dvd.mul_left (Dvd.intro_left (cls + 1) rfl) i),
    Nat.le_add_right _ _, ?_⟩
  show slab + i * ((cls + 1) * kAlign) + (cls + 1) * kAlign ≤ slab + kSlabSize
  omega

/-- The heap after a refill. -/
def Heap.refilled (h : Heap) (cls fresh : ℕ) : Heap :=
  { h with
    allocator := (h.allocator.refill h.ram cls fresh).1
    ram := (h.allocator.refill h.ram cls fresh).2.1 }

theorem Inv.refill (hI : Inv h free) {fresh : ℕ} (hcls : cls < kNumClasses)
    (hfresh : NewRegion h.regions ⟨fresh, kSlabSize⟩)
    (hnone : h.allocator.freeLists.getD cls 0 = 0) :
    Inv (h.refilled cls fresh) (newNodes cls fresh ++ free) := by
  have hcount : kSlabSize / ((cls + 1) * kAlign) * ((cls + 1) * kAlign) ≤ kSlabSize :=
    Nat.div_mul_le_self _ _
  have hstop : fresh + kSlabSize ≤ 2 ^ 64 := hfresh.stop
  have hobj : 8 ≤ (cls + 1) * kAlign := by
    unfold kAlign
    omega
  obtain ⟨hchain, hagree⟩ := linked_objects h.ram hobj hfresh.pos
    ((Nat.add_le_add_left hcount fresh).trans hstop)
  have hperm : (pieces (h.refilled cls fresh) (newNodes cls fresh ++ free)).Perm
      ((newNodes cls fresh).map Node.span ++ pieces h free) := by
    rw [pieces, List.map_append, ← List.append_assoc, pieces, ← List.append_assoc]
    exact List.perm_append_comm.append_right _
  have hslabs : ∀ s ∈ pieces h free, Span.Apart ⟨fresh, kSlabSize⟩ s := fun s hs =>
    hI.apart_outside (fun r hr => hfresh.apart r (List.mem_append_left _ hr)) hs
  have hregions : (h.refilled cls fresh).regions.Perm (⟨fresh, kSlabSize⟩ :: h.regions) := by
    have hspans : (h.refilled cls fresh).slabSpans = h.slabSpans ++ [⟨fresh, kSlabSize⟩] := by
      simp [Heap.slabSpans, Heap.refilled, SlabAllocator.refill]
    rw [Heap.regions, hspans, List.append_assoc, List.singleton_append]
    exact List.perm_middle
  constructor
  · exact (List.length_set ..).trans hI.length
  · intro cls' hcls'
    rw [nodes_append]
    rcases eq_or_ne cls cls' with rfl | hne
    · have hempty : nodes free cls = [] := (hnone ▸ hI.chains cls hcls).of_zero
      have hhead : (h.refilled cls fresh).allocator.freeLists.getD cls 0 =
        (h.allocator.refill h.ram cls fresh).2.2 :=
        (getD_set (hI.length.symm ▸ hcls)).trans (if_pos rfl)
      rw [nodes_newNodes, hempty, List.append_nil, hhead]
      exact hchain
    · have hhead : (h.refilled cls fresh).allocator.freeLists.getD cls' 0 =
        h.allocator.freeLists.getD cls' 0 := by
        simp [Heap.refilled, SlabAllocator.refill, List.getD, hne]
      rw [nodes_newNodes_ne hne, List.nil_append, hhead]
      refine (hI.chains cls' hcls').congr fun a ha => hagree _ ?_
      have hapart := hslabs _ (node_piece (mem_nodes.1 ha))
      exact hapart.symm.mono (Node.link_within ⟨cls', a⟩) ⟨le_rfl, Nat.add_le_add_left hcount fresh⟩
  · refine (hperm.pairwise_iff Span.Apart.symm).2
      (List.pairwise_append.2 ⟨newNodes_apart, hI.apart, ?_⟩)
    exact fun s hs t ht => (hslabs t ht).mono (newNodes_placed hfresh.aligned hs).2 ⟨le_rfl, le_rfl⟩
  · intro s hs
    rcases List.mem_append.1 (hperm.mem_iff.1 hs) with hs | hs
    · obtain ⟨haligned, hin⟩ := newNodes_placed hfresh.aligned hs
      exact ⟨haligned, fresh, List.mem_append_right _ (List.mem_singleton_self fresh), hin⟩
    · obtain ⟨haligned, slab, hslab, hin⟩ := hI.placed s hs
      exact ⟨haligned, slab, List.mem_append_left _ hslab, hin⟩
  · exact (hregions.pairwise_iff Span.Apart.symm).2 (List.pairwise_cons.2 ⟨hfresh.apart, hI.regions⟩)
  · intro r hr
    rcases List.mem_cons.1 (hregions.mem_iff.1 hr) with rfl | hr
    · exact ⟨hfresh.pos, hfresh.stop⟩
    · exact hI.owned r hr
  · exact hI.bytes

end Refill

section Steps

variable {h h' : Heap} {free free' : List Node} {b : Block} {p bytes fresh : ℕ}

def Heap.largeSpans (h : Heap) : List Span := (h.live.filter fun b => ¬b.Small).map Block.requested

/-- The small blocks do not fill the address space: nothing is at null. -/
theorem sum_lt (hapart : (pieces h free).Pairwise Span.Apart)
    (hbounds : ∀ s ∈ pieces h free, s.start ≠ 0 ∧ s.stop ≤ 2 ^ 64) :
    (h.smallLive.map fun b => classBytes b.bytes).sum < 2 ^ 64 := by
  have hmem : ∀ s ∈ h.smallLive.map Block.span, s ∈ pieces h free :=
    fun s hs => List.mem_append_left _ hs
  have hnull : (⟨0, 1⟩ :: h.smallLive.map Block.span).Pairwise Span.Apart :=
    List.pairwise_cons.2 ⟨fun s hs => .inl (Nat.pos_of_ne_zero (hbounds s (hmem s hs)).1),
    (List.pairwise_append.1 hapart).1⟩
  have hstop : ∀ s ∈ (⟨0, 1⟩ :: h.smallLive.map Block.span : List Span), s.stop ≤ 2 ^ 64 := by
    intro s hs
    rcases List.mem_cons.1 hs with rfl | hs
    · exact Nat.one_le_two_pow
    · exact (hbounds s (hmem s hs)).2
  have hle := Span.sum_size_le hnull hstop
  rw [List.map_cons, List.sum_cons, List.map_map] at hle
  exact Nat.lt_of_succ_le ((Nat.add_comm _ _).trans_le hle)

/-- Pieces may change hands. -/
theorem Inv.move (hI : Inv h free) (hslabs : h'.allocator.slabs = h.allocator.slabs)
    (hperm : (pieces h' free').Perm (pieces h free))
    (hlength : h'.allocator.freeLists.length = kNumClasses)
    (hchains : ∀ cls < kNumClasses,
    Chained h'.ram (h'.allocator.freeLists.getD cls 0) (nodes free' cls))
    (hregions : h'.regions.Pairwise Span.Apart ∧ ∀ r ∈ h'.regions, r.start ≠ 0 ∧ r.stop ≤ 2 ^ 64)
    (hbytes : (h'.smallLive.map fun b => classBytes b.bytes).sum < 2 ^ 64 →
      h'.allocator.liveBytes = (h'.smallLive.map fun b => classBytes b.bytes).sum) : Inv h' free' := by
  have hapart := (hperm.pairwise_iff Span.Apart.symm).2 hI.apart
  exact {
    length := hlength
    chains := hchains
    apart := hapart
    placed := fun s hs => hslabs ▸ hI.placed s (hperm.mem_iff.1 hs)
    regions := hregions.1
    owned := hregions.2
    bytes := hbytes (sum_lt hapart fun s hs => hI.bounds (hperm.mem_iff.1 hs)) }

theorem Inv.regions_perm (hI : Inv h free) (hperm : h'.regions.Perm h.regions) :
    h'.regions.Pairwise Span.Apart ∧ ∀ r ∈ h'.regions, r.start ≠ 0 ∧ r.stop ≤ 2 ^ 64 :=
  ⟨(hperm.pairwise_iff Span.Apart.symm).2 hI.regions, fun r hr => hI.owned r (hperm.mem_iff.1 hr)⟩

theorem nodes_cons_self (cls p : ℕ) (free : List Node) :
    nodes (⟨cls, p⟩ :: free) cls = p :: nodes free cls := by
  simp [nodes]

theorem nodes_cons_ne {cls cls' : ℕ} (hne : cls ≠ cls') (p : ℕ) (free : List Node) :
    nodes (⟨cls, p⟩ :: free) cls' = nodes free cls' := by
  simp [nodes, hne]

/-- The first node of a class can be taken out of the free ones. -/
theorem split_nodes {cls : ℕ} {ps : List ℕ} (h : nodes free cls = p :: ps) :
    ∃ before after, free = before ++ ⟨cls, p⟩ :: after ∧ nodes (before ++ after) cls = ps ∧
      ∀ cls' ≠ cls, nodes (before ++ after) cls' = nodes free cls' := by
  obtain ⟨n, ns, hfilter, rfl, rfl⟩ := List.map_eq_cons_iff.1 h
  obtain ⟨before, after, rfl, hbefore, hcls, hns⟩ := List.filter_eq_cons_iff.1 hfilter
  obtain rfl : n.cls = cls := of_decide_eq_true hcls
  have hnil : nodes before n.cls = [] := by
    rw [nodes, List.filter_eq_nil_iff.2 fun x hx => hbefore x hx, List.map_nil]
  refine ⟨before, after, rfl, ?_, fun cls' hne => ?_⟩
  · rw [nodes_append, hnil, List.nil_append, nodes, hns]
  · rw [nodes_append, nodes_append, nodes_cons_ne hne.symm]

theorem Inv.pop (hI : Inv h free) {cls head : ℕ} (hcls : cls < kNumClasses)
    (hhead : h.allocator.freeLists.getD cls 0 = head)
    (hne : head ≠ 0) (hsmall : bytes ≤ kMaxSmall) (hbytes : classBytes bytes = (cls + 1) * kAlign) :
    ∃ free', Inv ⟨h.allocator.pop h.ram cls head, h.ram, h.live ++ [⟨head, bytes⟩]⟩ free' := by
  obtain ⟨ps, hps, hnext⟩ := (hhead ▸ hI.chains cls hcls).pop hne
  obtain ⟨before, after, rfl, hself, hother⟩ := split_nodes hps
  have hspan : Block.span ⟨head, bytes⟩ = Node.span ⟨cls, head⟩ := congrArg (Span.mk head) hbytes
  have hlive : Heap.smallLive ⟨h.allocator.pop h.ram cls head, h.ram, h.live ++ [⟨head, bytes⟩]⟩ =
    h.smallLive ++ [⟨head, bytes⟩] := by
    simp [Heap.smallLive, Block.Small, hsmall]
  refine ⟨before ++ after, hI.move rfl ?_ ((List.length_set ..).trans hI.length) ?_
    (hI.regions_perm ?_) fun hlt => ?_⟩
  · rw [pieces, hlive, pieces]
    simp only [List.map_append, List.map_cons, List.map_nil, List.append_assoc,
      List.singleton_append, hspan]
    exact List.Perm.append_left _ List.perm_middle.symm
  · intro cls' hcls'
    show Chained h.ram ((h.allocator.freeLists.set cls (load64 h.ram head)).getD cls' 0)
      (nodes (before ++ after) cls')
    rcases eq_or_ne cls' cls with rfl | hne'
    · rw [getD_set (hI.length.symm ▸ hcls), if_pos rfl, hself]
      exact hnext
    · rw [getD_set (hI.length.symm ▸ hcls), if_neg hne', hother cls' hne']
      exact hI.chains cls' hcls'
  · refine List.Perm.append_left _ (List.Perm.of_eq ?_)
    simp [Block.Small, hsmall]
  · have hsum : ((h.smallLive ++ [(⟨head, bytes⟩ : Block)]).map fun b => classBytes b.bytes).sum =
        (h.smallLive.map fun b => classBytes b.bytes).sum + classBytes bytes := by simp
    rw [hlive, hsum] at hlt ⊢
    rw [← u64_of_lt hlt, ← hI.bytes, hbytes]
    rfl

theorem small_perm (hb : b ∈ h.live) (hsmall : b.Small) :
    h.smallLive.Perm (b :: (h.live.erase b).filter fun b => b.Small) := by
  have hperm := (List.perm_cons_erase hb).filter fun b => b.Small
  rwa [List.filter_cons_of_pos (p := fun b : Block => decide b.Small) (decide_eq_true hsmall)] at hperm

theorem Inv.push (hI : Inv h free) {cls : ℕ} (hcls : cls < kNumClasses) (hb : ⟨p, bytes⟩ ∈ h.live)
    (hp : p ≠ 0)
    (hsmall : bytes ≤ kMaxSmall) (hbytes : classBytes bytes = (cls + 1) * kAlign) :
    Inv ⟨h.allocator.push cls p, store64 h.ram p (h.allocator.freeLists.getD cls 0),
    h.live.erase ⟨p, bytes⟩⟩
      (⟨cls, p⟩ :: free) := by
  have hspan : Block.span ⟨p, bytes⟩ = Node.span ⟨cls, p⟩ := congrArg (Span.mk p) hbytes
  have hmem : ⟨p, bytes⟩ ∈ h.smallLive := List.mem_filter.2 ⟨hb, decide_eq_true hsmall⟩
  have hlive := small_perm hb hsmall
  have hlink : ∀ n ∈ free, Span.Apart ⟨n.addr, 8⟩ ⟨p, 8⟩ := by
    intro n hn
    have hapart := hI.apart_block_node hmem hn
    rw [hspan] at hapart
    exact hapart.symm.mono n.link_within (Node.link_within ⟨cls, p⟩)
  refine hI.move rfl ?_ ((List.length_set ..).trans hI.length) ?_ (hI.regions_perm ?_) fun _ => ?_
  · have hmap := hlive.map Block.span
    rw [List.map_cons, hspan] at hmap
    exact List.perm_middle.trans (hmap.symm.append_right (free.map Node.span))
  · intro cls' hcls'
    show Chained _ ((h.allocator.freeLists.set cls p).getD cls' 0) (nodes (⟨cls, p⟩ :: free) cls')
    rcases eq_or_ne cls' cls with rfl | hne
    · rw [getD_set (hI.length.symm ▸ hcls), if_pos rfl, nodes_cons_self]
      exact (hI.chains cls' hcls).push hp ((hI.chains cls' hcls).head_lt fun a ha =>
        hI.addr_lt (mem_nodes.1 ha))
        fun a ha => hlink _ (mem_nodes.1 ha)
    · rw [getD_set (hI.length.symm ▸ hcls), if_neg hne, nodes_cons_ne hne.symm]
      exact (hI.chains cls' hcls').congr fun a ha => agreeOn_store64 (hlink _ (mem_nodes.1 ha))
  · have hperm := (List.perm_cons_erase hb).filter fun b => ¬b.Small
    rw [List.filter_cons_of_neg (by simpa [Block.Small] using hsmall)] at hperm
    exact List.Perm.append_left _ (hperm.symm.map Block.requested)
  · have hsum := (hlive.map fun b => classBytes b.bytes).sum_eq
    rw [List.map_cons, List.sum_cons, ← hI.bytes] at hsum
    have hlt : h.allocator.liveBytes < 2 ^ 64 := hI.bytes ▸ sum_lt hI.apart fun s hs => hI.bounds hs
    have hle : (cls + 1) * kAlign ≤ h.allocator.liveBytes :=
      hbytes ▸ (Nat.le_add_right _ _).trans_eq hsum.symm
    show sub64 h.allocator.liveBytes ((cls + 1) * kAlign) =
      (((h.live.erase ⟨p, bytes⟩).filter _).map _).sum
    rw [sub64_of_le hle hlt, hsum, ← hbytes, Nat.add_sub_cancel_left]

/-- The class that serves a request. -/
def classOf (bytes : ℕ) : ℕ := sizeClass (if bytes = 0 then 1 else bytes)

theorem served_small (hsmall : bytes ≤ kMaxSmall) : (if bytes = 0 then 1 else bytes) ≤ kMaxSmall := by
  split_ifs
  · decide
  · exact hsmall

theorem served_large (hlarge : ¬bytes ≤ kMaxSmall) : (if bytes = 0 then 1 else bytes) = bytes :=
  if_neg fun hzero : bytes = 0 => hlarge (hzero ▸ Nat.zero_le _)

theorem classOf_lt (hsmall : bytes ≤ kMaxSmall) : classOf bytes < kNumClasses :=
  sizeClass_lt (served_small hsmall)

theorem allocate_small (a : SlabAllocator) (m : Ram) (hsmall : bytes ≤ kMaxSmall) :
    a.allocate m bytes fresh =
    if a.freeLists.getD (classOf bytes) 0 = 0 then
      let r := a.refill m (classOf bytes) fresh
      (r.1.pop r.2.1 (classOf bytes) r.2.2, r.2.1, r.2.2)
    else (a.pop m (classOf bytes) (a.freeLists.getD (classOf bytes) 0), m,
      a.freeLists.getD (classOf bytes) 0) := by
  rw [allocate, if_neg (not_lt.2 (served_small hsmall))]
  dsimp only [classOf]
  split_ifs <;> rfl

theorem newNodes_ne_nil (hsmall : bytes ≤ kMaxSmall) (slab : ℕ) :
    nodes (newNodes (classOf bytes) slab) (classOf bytes) ≠ [] := by
  have hlt : classOf bytes < 32 := classOf_lt hsmall
  have hpos : 0 < kSlabSize / ((classOf bytes + 1) * kAlign) := by
    refine Nat.div_pos ?_ (Nat.mul_pos (Nat.succ_pos _) (by decide))
    unfold kSlabSize kAlign
    omega
  rw [nodes_newNodes]
  intro hnil
  have hlen := congrArg List.length hnil
  simp only [List.length_map, List.length_reverse, List.length_range, List.length_nil] at hlen
  omega

theorem Inv.allocate (hI : Inv h free) (hv : h.Valid (.allocate bytes fresh)) :
    ∃ free', Inv (h.step (.allocate bytes fresh)).1 free' := by
  by_cases hsmall : bytes ≤ kMaxSmall
  · have hcls := classOf_lt hsmall
    rw [Heap.Valid, if_pos hsmall] at hv
    rw [Heap.step, allocate_small h.allocator h.ram hsmall]
    split_ifs with hnone
    · have hI' := hI.refill hcls (hv hnone) hnone
      have hhead : (h.refilled (classOf bytes) fresh).allocator.freeLists.getD (classOf bytes) 0 =
        (h.allocator.refill h.ram (classOf bytes) fresh).2.2 :=
        (getD_set (hI.length.symm ▸ hcls)).trans (if_pos rfl)
      refine hI'.pop hcls hhead (fun hzero => ?_) hsmall rfl
      have hnil := ((hhead.trans hzero) ▸ hI'.chains _ hcls).of_zero
      rw [nodes_append] at hnil
      exact newNodes_ne_nil hsmall fresh (List.append_eq_nil_iff.1 hnil).1
    · exact hI.pop hcls rfl hnone hsmall rfl
  · rw [Heap.Valid, if_neg hsmall] at hv
    rw [Heap.step, SlabAllocator.allocate, served_large hsmall, if_pos (not_le.1 hsmall)]
    have hlive : (h.live ++ [(⟨fresh, bytes⟩ : Block)]).filter (fun b => b.Small) = h.smallLive := by
      simp [Heap.smallLive, Block.Small, hsmall]
    have hlarge : (h.live ++ [(⟨fresh, bytes⟩ : Block)]).filter (fun b => ¬b.Small) =
        h.live.filter (fun b => ¬b.Small) ++ [⟨fresh, bytes⟩] := by
      simpa [Block.Small] using hsmall
    have hperm : (h.slabSpans ++
        ((h.live ++ [(⟨fresh, bytes⟩ : Block)]).filter fun b => ¬b.Small).map Block.requested).Perm
        (⟨fresh, bytes⟩ :: h.regions) := by
      rw [hlarge, List.map_append, ← List.append_assoc]
      exact List.perm_append_singleton ..
    refine ⟨free, hI.move rfl ?_ hI.length hI.chains ⟨?_, fun r hr => ?_⟩ fun _ => ?_⟩
    · exact List.Perm.of_eq (congrArg (fun live => live.map Block.span ++ free.map Node.span) hlive)
    · exact (hperm.pairwise_iff Span.Apart.symm).2 (List.pairwise_cons.2 ⟨hv.apart, hI.regions⟩)
    · rcases List.mem_cons.1 (hperm.mem_iff.1 hr) with rfl | hr
      · exact ⟨hv.pos, hv.stop⟩
      · exact hI.owned r hr
    · exact hI.bytes.trans
        (congrArg (fun live => (live.map fun b => classBytes b.bytes).sum) hlive.symm)

theorem Inv.deallocate (hI : Inv h free) (hv : h.Valid (.deallocate p bytes)) :
    ∃ free', Inv (h.step (.deallocate p bytes)).1 free' := by
  rw [Heap.step, SlabAllocator.deallocate]
  by_cases hp : p = 0
  · rw [if_pos hp, if_pos hp]
    exact ⟨free, hI⟩
  have hb : ⟨p, bytes⟩ ∈ h.live := hv.resolve_left hp
  rw [if_neg hp, if_neg hp]
  by_cases hsmall : bytes ≤ kMaxSmall
  · rw [if_neg (not_lt.2 (served_small hsmall))]
    exact ⟨_, hI.push (classOf_lt hsmall) hb hp hsmall rfl⟩
  · rw [served_large hsmall, if_pos (not_le.1 hsmall)]
    have hlive : h.smallLive.Perm ((h.live.erase ⟨p, bytes⟩).filter fun b => b.Small) := by
      have hperm := (List.perm_cons_erase hb).filter fun b => b.Small
      rwa [List.filter_cons_of_neg (by simp [Block.Small, hsmall])] at hperm
    have hlarge : (h.live.filter fun b => ¬b.Small).Perm
        (⟨p, bytes⟩ :: (h.live.erase ⟨p, bytes⟩).filter fun b => ¬b.Small) := by
      have hperm := (List.perm_cons_erase hb).filter fun b => ¬b.Small
      rwa [List.filter_cons_of_pos (by simpa [Block.Small] using hsmall)] at hperm
    have hperm : h.regions.Perm
        (⟨p, bytes⟩ :: (h.slabSpans ++
          ((h.live.erase ⟨p, bytes⟩).filter fun b => ¬b.Small).map Block.requested)) :=
      ((hlarge.map Block.requested).append_left h.slabSpans).trans List.perm_middle
    have howned := fun r hr => hI.owned r (hperm.mem_iff.2 (List.mem_cons_of_mem _ hr))
    refine ⟨free, hI.move rfl ?_ hI.length hI.chains ⟨?_, howned⟩ fun _ => ?_⟩
    · exact (hlive.symm.map Block.span).append_right (free.map Node.span)
    · exact (List.pairwise_cons.1 ((hperm.pairwise_iff Span.Apart.symm).1 hI.regions)).2
    · show h.allocator.liveBytes =
        (((h.live.erase ⟨p, bytes⟩).filter fun b => b.Small).map fun b => classBytes b.bytes).sum
      rw [hI.bytes, (hlive.map fun b : Block => classBytes b.bytes).sum_eq]

theorem Inv.step (hI : Inv h free) {c : Call} (hv : h.Valid c) : ∃ free', Inv (h.step c).1 free' := by
  cases c with
  | allocate bytes fresh => exact hI.allocate hv
  | deallocate p bytes => exact hI.deallocate hv
  | write p v => exact ⟨free, hI.write hv⟩

end Steps

section Runs

variable {h : Heap} {free : List Node}

namespace Heap

/-- What callers rely on. -/
structure Sound (h : Heap) : Prop where
  apart : h.smallLive.Pairwise fun b c => b.span.Apart c.span
  aligned : ∀ b ∈ h.smallLive, kAlign ∣ b.addr
  inSlab : ∀ b ∈ h.smallLive, ∃ slab ∈ h.allocator.slabs, b.span.Within ⟨slab, kSlabSize⟩
  enough : ∀ b ∈ h.smallLive, b.requested.Within b.span
  free : ∀ cls < kNumClasses, ∀ p, OnList h.ram (h.allocator.freeLists.getD cls 0) p →
    ∀ b ∈ h.smallLive, b.span.Apart ⟨p, (cls + 1) * kAlign⟩
  bytes : h.allocator.liveBytes = (h.smallLive.map fun b => classBytes b.bytes).sum

end Heap

theorem Inv.sound (hI : Inv h free) : h.Sound where
  apart := hI.apart_blocks
  aligned _ hb := (hI.placed _ (block_piece hb)).1
  inSlab _ hb := (hI.placed _ (block_piece hb)).2
  enough b _ := ⟨le_rfl, Nat.add_le_add_left (le_classBytes b.bytes) b.addr⟩
  free cls hcls _ hp _ hb := hI.apart_block_node hb (mem_nodes.1 ((hI.chains cls hcls).mem hp))
  bytes := hI.bytes

/-- Whatever is called, the live blocks are apart, aligned, in a slab and large enough, free nodes
do not overlap them, and their bytes are counted. -/
theorem slab_sound (m : Ram) {calls : List Call}
    (hv : RunOk Heap.step Heap.Valid (Heap.start m) calls) :
    (runTotal Heap.step (Heap.start m) calls).1.Sound := by
  have hkept : ∀ h c, (∃ free, Inv h free) → h.Valid c → ∃ free, Inv (h.step c).1 free := by
    rintro h c ⟨free, hI⟩ hv
    exact hI.step hv
  obtain ⟨free, hI⟩ := hv.kept hkept ⟨[], inv_start m⟩
  exact hI.sound

theorem slab_sound_reused : (runTotal Heap.step (Heap.start fun _ => 0)
    [.allocate 24 (2 ^ 20), .allocate 100 (2 ^ 21),
      .deallocate (empty.allocate (fun _ => 0) 24 (2 ^ 20)).2.2 24]).1.Sound := by
  refine slab_sound _ ⟨fun _ => ⟨by norm_num, by norm_num, by norm_num [Span.stop, kSlabSize], ?_⟩,
    fun _ => ⟨by norm_num, by norm_num,
    by norm_num [Span.stop, kSlabSize], ?_⟩, .inr (List.mem_cons_self), trivial⟩
  · exact fun r hr => absurd hr List.not_mem_nil
  · intro r hr
    have hregions : ((Heap.start fun _ => 0).step (.allocate 24 (2 ^ 20))).1.regions =
      [⟨2 ^ 20, kSlabSize⟩] := rfl
    rw [hregions, List.mem_singleton] at hr
    rw [hr]
    decide

end Runs

end BlazeKV.SlabAllocator
