import Disasm.FlowGraph.Order
import Disasm.Proofs.DepthFirst.Groups

/-! # The order of a flow graph

The order lists every block once. It is made of groups, one for each root that
no earlier root reaches. An edge leads forward in it unless it closes a cycle or
leads to a group that is complete.
-/

namespace Disasm.FlowGraph

open DepthFirst
open scoped List

def Reaches (g : FlowGraph) : BlockId → BlockId → Prop := DepthFirst.Reaches g.successors

variable {g : FlowGraph} {a b : BlockId}

theorem mem_successors : b ∈ g.successors a ↔ (a, b) ∈ g.edges.toList := by
  simp only [successors, Array.toList_filterMap, List.mem_filterMap, Option.ite_none_right_eq_some,
    Option.some.injEq]
  constructor
  · rintro ⟨⟨_, _⟩, he, rfl, rfl⟩
    exact he
  · exact fun h => ⟨_, h, rfl, rfl⟩

theorem closed_ids (g : FlowGraph) : Closed g.successors g.ids :=
  fun _ _ _ hb => mem_ids_of_mem_successors hb

theorem nodup_ids (g : FlowGraph) : g.ids.Nodup := g.distinct

theorem length_ids (g : FlowGraph) : g.ids.length = g.size := by simp [ids, size]

@[simp] theorem mem_roots : a ∈ g.roots ↔ a ∈ g.ids := by
  unfold roots
  split
  · next h =>
    rw [List.mem_cons]
    exact or_iff_right_of_imp fun he => he ▸ contains_iff.mp h
  · rfl

/-- The limit on search paths is never met. -/
theorem forest_groups (g : FlowGraph) : Forest g.successors [] g.roots g.groups := by
  have hc : ∀ a ∈ g.ids.toFinset, ∀ b ∈ g.successors a, b ∈ g.ids.toFinset :=
    fun _ _ _ hb => List.mem_toFinset.mpr (mem_ids_of_mem_successors hb)
  have hd : (unseen g.ids.toFinset []).card ≤ g.size := by
    calc (unseen g.ids.toFinset []).card
      _ ≤ g.ids.toFinset.card := Finset.card_filter_le ..
      _ ≤ g.ids.length := List.toFinset_card_le _
      _ = g.size := g.length_ids
  exact forest_spec hc hd fun a ha => List.mem_toFinset.mpr (mem_roots.mp ha)

theorem nodup_reversePostOrder (g : FlowGraph) : g.reversePostOrder.Nodup := g.forest_groups.nodup

@[simp] theorem mem_reversePostOrder : a ∈ g.reversePostOrder ↔ a ∈ g.ids := by
  rw [reversePostOrder, g.forest_groups.mem_flatten_iff (by simp [Closed])]
  constructor
  · rintro ⟨_, u, hu, hr⟩
    exact g.closed_ids.mem_of_reaches (mem_roots.mp hu) hr
  · exact fun ha => ⟨List.not_mem_nil, a, mem_roots.mpr ha, .refl⟩

theorem block?_isSome (ha : a ∈ g.ids) : (g.block? a).isSome := by
  rw [block?, Array.find?_isSome]
  obtain ⟨b, hb, rfl⟩ := List.mem_map.mp ha
  exact ⟨b, Array.mem_toList_iff.mp hb, by simp⟩

theorem map_some_flowOrder (g : FlowGraph) :
    g.flowOrder.map some = g.reversePostOrder.map g.block? := by
  rw [flowOrder, List.map_filterMap_some_eq_filter_map_isSome, List.filter_eq_self]
  intro x hx
  obtain ⟨a, ha, rfl⟩ := List.mem_map.mp hx
  exact block?_isSome (mem_reversePostOrder.mp ha)

theorem reversePostOrder_perm (g : FlowGraph) : g.reversePostOrder ~ g.ids :=
  (List.perm_ext_iff_of_nodup g.nodup_reversePostOrder g.distinct).mpr fun _ => mem_reversePostOrder

theorem length_reversePostOrder (g : FlowGraph) : g.reversePostOrder.length = g.size := by
  rw [← g.length_ids]
  exact g.reversePostOrder_perm.length_eq

theorem block?_of_mem {block : Block} (h : block ∈ g.blocks.toList) :
    g.block? block.id = some block := by
  obtain ⟨found, hf⟩ := Option.isSome_iff_exists.mp (block?_isSome (List.mem_map_of_mem h))
  have hm : found ∈ g.blocks.toList := Array.mem_toList_iff.mpr (Array.mem_of_find?_eq_some hf)
  have hi : found.id = block.id := by simpa using Array.find?_some hf
  rw [hf, List.inj_on_of_nodup_map g.distinct hm h hi]

theorem flowOrder_perm (g : FlowGraph) : g.flowOrder ~ g.blocks.toList := by
  have hb : g.ids.filterMap g.block? = g.blocks.toList := by
    rw [ids, List.filterMap_map]
    calc g.blocks.toList.filterMap (g.block? ∘ Block.id)
      _ = g.blocks.toList.filterMap some := List.filterMap_congr fun _ => block?_of_mem
      _ = g.blocks.toList := List.filterMap_some
  exact hb ▸ g.reversePostOrder_perm.filterMap g.block?

/-- A search without a limit ends, in the groups and in nothing else. The order lists every
block number once, and the blocks stand in it place by place. -/
theorem flowOrder_lists_each_block_once (g : FlowGraph) :
    (∀ groups, Forest g.successors [] g.roots groups ↔ groups = g.groups) ∧
      g.reversePostOrder.Nodup ∧ (∀ id, id ∈ g.reversePostOrder ↔ id ∈ g.ids) ∧
      g.flowOrder.length = g.size ∧
      g.flowOrder.map some = g.reversePostOrder.map g.block? := by
  refine ⟨fun groups => ⟨fun h => h.unique g.forest_groups, ?_⟩, g.nodup_reversePostOrder,
    fun _ => mem_reversePostOrder, ?_, g.map_some_flowOrder⟩
  · rintro rfl
    exact g.forest_groups
  · have h := congrArg List.length g.map_some_flowOrder
    rwa [List.length_map, List.length_map, length_reversePostOrder] at h

/-- The first group is that of the entry, if the entry is a block. -/
theorem groups_of_entry (he : g.contains g.entry) : ∃ others rest,
    g.groups = (g.entry :: others) :: rest ∧
      Sweep g.successors [g.entry] (g.successors g.entry) others ∧
      Forest g.successors (g.entry :: others) g.ids rest := by
  have h := g.forest_groups
  rw [roots, if_pos he] at h
  generalize g.groups = groups at h
  cases h with
  | known hv => cases hv
  | fresh _ hs hf => exact ⟨_, _, rfl, hs, by simpa using hf⟩

theorem flowOrder_of_entry (he : g.contains g.entry) : ∃ first rest,
    g.flowOrder = first :: rest ∧ first.id = g.entry := by
  obtain ⟨others, groups, hg, -, -⟩ := groups_of_entry he
  obtain ⟨first, hf⟩ := Option.isSome_iff_exists.mp (block?_isSome (contains_iff.mp he))
  refine ⟨first, (others ++ groups.flatten).filterMap g.block?, ?_, ?_⟩
  · rw [flowOrder, reversePostOrder, hg, List.flatten_cons, List.cons_append,
      List.filterMap_cons_some hf]
  · simpa using Array.find?_some hf

theorem no_path_between_groups (g : FlowGraph) {former latter : List BlockId}
    (h : [former, latter] <+ g.groups) (ha : a ∈ former) (hb : b ∈ latter) : ¬ g.Reaches a b :=
  List.pairwise_iff_forall_sublist.mp (g.forest_groups.no_path (by simp [Closed])) h a ha b hb

/-- A block was listed for a root that does not reach another block, which has a later root. -/
def ListedForEarlierRoot (g : FlowGraph) (b a : BlockId) : Prop :=
  ∃ former latter root, [former, latter] <+ g.groups ∧ former.head? = some root ∧
    b ∈ former ∧ a ∈ latter ∧ ¬ g.Reaches root a

theorem backward_edge (g : FlowGraph) :
    g.reversePostOrder.Pairwise fun b a => b ∈ g.successors a →
      g.Reaches b a ∨ g.ListedForEarlierRoot b a := by
  refine List.pairwise_flatten.mpr ⟨fun group hg => ?_, ?_⟩
  · exact (g.forest_groups.back_edges group hg).imp fun h hab => .inl (h hab)
  · refine List.pairwise_iff_forall_sublist.mpr fun {former latter} h b hb a ha _ => .inr ?_
    obtain ⟨root, rest, rfl⟩ := List.exists_cons_of_ne_nil
      (g.forest_groups.ne_nil _ (h.subset List.mem_cons_self))
    exact ⟨_, _, root, h, rfl, hb, ha, g.no_path_between_groups h List.mem_cons_self ha⟩

theorem listed_either_way {l : List BlockId} (ha : a ∈ l) (hb : b ∈ l) (hn : a ≠ b) :
    [a, b] <+ l ∨ [b, a] <+ l := by
  obtain ⟨s, t, rfl⟩ := List.append_of_mem ha
  rcases List.mem_append.mp hb with hb | hb
  · refine .inr ?_
    exact (List.singleton_sublist.mpr hb).append (List.singleton_sublist.mpr List.mem_cons_self)
  · have hb := (List.mem_cons.mp hb).resolve_left hn.symm
    refine .inl (List.Sublist.trans ?_ (List.sublist_append_right s (a :: t)))
    exact (List.singleton_sublist.mpr hb).cons_cons a

theorem not_backward_of_entry (he : g.contains g.entry) (hr : g.Reaches g.entry a)
    (hab : b ∈ g.successors a) (hn : ¬ g.Reaches b a) : ¬ [b, a] <+ g.reversePostOrder := by
  intro h
  rcases List.pairwise_iff_forall_sublist.mp g.backward_edge h hab with hc | hc
  · exact hn hc
  · obtain ⟨former, latter, _, hs, _, _, hl, _⟩ := hc
    obtain ⟨others, rest, hg, _, _⟩ := groups_of_entry he
    have hm : latter ∈ rest := by
      rw [hg] at hs
      cases hs with
      | cons _ hs => exact hs.subset (by simp)
      | cons_cons _ hs => exact hs.subset (by simp)
    have hs' : [g.entry :: others, latter] <+ g.groups := by
      rw [hg]
      exact (List.singleton_sublist.mpr hm).cons_cons _
    exact g.no_path_between_groups hs' List.mem_cons_self hl hr

/-- An edge from a reachable block that closes no cycle leads forward in every part of the
order that has both ends. -/
theorem forward_edge (he : g.contains g.entry) (hr : g.Reaches g.entry a)
    (hab : b ∈ g.successors a) (hn : ¬ g.Reaches b a) {part : List BlockId}
    (hp : part <+ g.reversePostOrder) (ha : a ∈ part) (hb : b ∈ part) : [a, b] <+ part :=
  (listed_either_way ha hb fun h => hn (h ▸ .refl)).resolve_right
    fun h => not_backward_of_entry he hr hab hn (h.trans hp)

def OnCycle (g : FlowGraph) (a : BlockId) : Prop := ∃ b ∈ g.successors a, g.Reaches b a

/-- Every edge between blocks of a list leads forward in it. -/
def Topological (g : FlowGraph) (part : List BlockId) : Prop :=
  ∀ a ∈ part, ∀ b ∈ part, b ∈ g.successors a → [a, b] <+ part

noncomputable def reachableOrder (g : FlowGraph) : List BlockId :=
  open Classical in g.reversePostOrder.filter fun a => decide (g.Reaches g.entry a)

/-- An edge leads backwards in the order only if it closes a cycle, or if its target was listed
for an earlier root that does not reach its source. What the entry reaches is in topological
order as far as it has no cycles. -/
theorem edges_follow_reversePostOrder (g : FlowGraph) :
    (∀ a b, b ∈ g.successors a → a ≠ b → [b, a] <+ g.reversePostOrder →
      g.Reaches b a ∨ g.ListedForEarlierRoot b a) ∧
    (g.contains g.entry → ∀ a b, g.Reaches g.entry a → b ∈ g.successors a → ¬ g.Reaches b a →
      [a, b] <+ g.reversePostOrder) ∧
    (g.contains g.entry → (∀ a, g.Reaches g.entry a → ¬ g.OnCycle a) →
      g.Topological g.reachableOrder) := by
  refine ⟨fun a b hab _ h => List.pairwise_iff_forall_sublist.mp g.backward_edge h hab,
    fun he a b hr hab hn => ?_, fun he hc a ha b hb hab => ?_⟩
  · have ha := g.closed_ids.mem_of_reaches (contains_iff.mp he) hr
    exact forward_edge he hr hab hn (List.Sublist.refl _) (mem_reversePostOrder.mpr ha)
      (mem_reversePostOrder.mpr (mem_ids_of_mem_successors hab))
  · have hr : g.Reaches g.entry a := by simpa using (List.mem_filter.mp ha).2
    exact forward_edge he hr hab (fun h => hc a hr ⟨b, hab, h⟩) List.filter_sublist ha hb

def confluence : FlowGraph where
  entry := ⟨0⟩
  blocks := #[{ id := ⟨0⟩, start := 0 }, { id := ⟨2⟩, start := 32 }, { id := ⟨1⟩, start := 16 }]
  edges := #[(⟨0⟩, ⟨2⟩), (⟨1⟩, ⟨2⟩)]
  distinct := by decide
  closed := by decide

theorem confluence_edge (h : b ∈ confluence.successors a) : a ≠ ⟨2⟩ ∧ b = ⟨2⟩ := by
  have hm : (a, b) ∈ [(⟨0⟩, ⟨2⟩), (⟨1⟩, ⟨2⟩)] := mem_successors.mp h
  simp only [List.mem_cons, Prod.mk.injEq, List.not_mem_nil, or_false] at hm
  rcases hm with ⟨rfl, rfl⟩ | ⟨rfl, rfl⟩ <;> decide

theorem eq_of_confluence_reaches (h : confluence.Reaches ⟨2⟩ a) : a = ⟨2⟩ := by
  have hc : Closed confluence.successors [⟨2⟩] := fun a ha b hb =>
    absurd (List.mem_singleton.mp ha) (confluence_edge hb).1
  exact List.mem_singleton.mp (hc.mem_of_reaches List.mem_cons_self h)

theorem confluence_edges_follow_order :
    ((⟨2⟩ ∈ confluence.successors ⟨1⟩ ∧ [⟨2⟩, ⟨1⟩] <+ confluence.reversePostOrder) ∧
      (confluence.Reaches ⟨2⟩ ⟨1⟩ ∨ confluence.ListedForEarlierRoot ⟨2⟩ ⟨1⟩)) ∧
    ((confluence.contains confluence.entry ∧ confluence.Reaches ⟨0⟩ ⟨0⟩ ∧
      ⟨2⟩ ∈ confluence.successors ⟨0⟩ ∧ ¬ confluence.Reaches ⟨2⟩ ⟨0⟩) ∧
      [⟨0⟩, ⟨2⟩] <+ confluence.reversePostOrder) ∧
    ((∀ a, confluence.Reaches confluence.entry a → ¬ confluence.OnCycle a) ∧
      confluence.Topological confluence.reachableOrder) := by
  have he : confluence.contains confluence.entry := by decide +kernel
  have hb : [⟨2⟩, ⟨1⟩] <+ confluence.reversePostOrder := by decide +kernel
  have h₁ : ⟨2⟩ ∈ confluence.successors ⟨1⟩ := mem_successors.mpr (by decide)
  have h₀ : ⟨2⟩ ∈ confluence.successors ⟨0⟩ := mem_successors.mpr (by decide)
  have hn : ¬ confluence.Reaches ⟨2⟩ ⟨0⟩ := fun h => by simpa using eq_of_confluence_reaches h
  have hc : ∀ a, confluence.Reaches confluence.entry a → ¬ confluence.OnCycle a := by
    rintro a - ⟨b, hab, hr⟩
    obtain ⟨ha, rfl⟩ := confluence_edge hab
    exact ha (eq_of_confluence_reaches hr)
  exact ⟨⟨⟨h₁, hb⟩, (edges_follow_reversePostOrder confluence).1 _ _ h₁ (by decide) hb⟩,
    ⟨⟨he, .refl, h₀, hn⟩, (edges_follow_reversePostOrder confluence).2.1 he _ _ .refl h₀ hn⟩,
    hc, (edges_follow_reversePostOrder confluence).2.2 he hc⟩

/-- The order is made of groups in the order of their roots. The group of the entry comes first,
no edge leads to a later group, and without edges the blocks stand in order of addition. -/
theorem reversePostOrder_made_of_groups (g : FlowGraph) :
    g.reversePostOrder = g.groups.flatten ∧
    Grouped g.successors [] g.roots g.groups ∧
    (g.contains g.entry → ∃ others, g.entry :: others <+: g.reversePostOrder ∧
      ∀ a, a ∈ g.entry :: others ↔ g.Reaches g.entry a) ∧
    (g.groups.Pairwise fun former latter =>
      ∀ a ∈ former, ∀ b ∈ latter, b ∉ g.successors a) ∧
    ((∀ a, g.successors a = []) → g.reversePostOrder =
      if g.contains g.entry then g.entry :: g.ids.erase g.entry else g.ids) := by
  refine ⟨rfl, g.forest_groups.grouped (by simp) (by simp [Complete]), fun he => ?_, ?_,
    fun hi => ?_⟩
  · obtain ⟨others, rest, hg, hs, _⟩ := groups_of_entry he
    refine ⟨others, ?_, fun a => ?_⟩
    · rw [reversePostOrder, hg, List.flatten_cons]
      exact List.prefix_append _ _
    · rw [Sweep.mem_group_iff List.not_mem_nil hs (by simp [Closed])]
      exact and_iff_right List.not_mem_nil
  · refine List.pairwise_iff_forall_sublist.mpr fun h a ha b hb hab => ?_
    exact g.no_path_between_groups h ha hb (.single hab)
  · split
    · next he =>
      obtain ⟨others, rest, hg, hs, hf⟩ := groups_of_entry he
      rw [hi] at hs
      cases hs
      rw [reversePostOrder, hg, List.flatten_cons, hf.flatten_of_isolated hi g.nodup_ids,
        g.nodup_ids.erase_eq_filter]
      simp only [List.mem_singleton, decide_not, List.singleton_append]
      rfl
    · next he =>
      have hd : g.roots.Nodup := by
        rw [roots, if_neg he]
        exact g.nodup_ids
      simpa [roots, he, reversePostOrder] using g.forest_groups.flatten_of_isolated hi hd

def scattered : FlowGraph where
  entry := ⟨1⟩
  blocks := #[{ id := ⟨2⟩, start := 32 }, { id := ⟨1⟩, start := 16 }, { id := ⟨3⟩, start := 48 }]
  edges := #[]
  distinct := by decide
  closed := by simp

theorem confluence_and_scattered_made_of_groups :
    (confluence.contains confluence.entry ∧
      ∃ others, confluence.entry :: others <+: confluence.reversePostOrder ∧
        ∀ a, a ∈ confluence.entry :: others ↔ confluence.Reaches confluence.entry a) ∧
    ((∀ a, scattered.successors a = []) ∧ scattered.reversePostOrder = [⟨1⟩, ⟨2⟩, ⟨3⟩]) := by
  have he : confluence.contains confluence.entry := by decide +kernel
  have hs : ∀ a, scattered.successors a = [] := fun _ => rfl
  refine ⟨⟨he, (reversePostOrder_made_of_groups confluence).2.2.1 he⟩, hs, ?_⟩
  rw [(reversePostOrder_made_of_groups scattered).2.2.2.2 hs]
  decide +kernel

end Disasm.FlowGraph
