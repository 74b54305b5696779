import StyledText.Markdown.Tree.Outline

/-!
# Trees as they are built

A tree comes from a root by pushes, each below a node already there, and by changes of kinds
(`Tree.Built`). Its links then agree with each other: `Tree.Linked` says so, and every step keeps
it. What looks along the links, upwards (`Tree.ancestors`) or downwards (`Tree.outline`), then
follows them step by step, without regard to the bound it is given.
-/

namespace StyledText.Markdown.Tree

variable {t : Tree} {id p c : Nat} {kind : Kind}

/-! ## The nodes after a step -/

/-- Outside of a tree there are empty nodes. -/
theorem node_of_size_le (h : t.size ≤ id) : t.node id = {} := by
  unfold node
  rw [Array.getElem?_eq_none h]
  rfl

/-- Outside of a tree there are no children. -/
theorem children_of_size_le (h : t.size ≤ id) : t.children id = [] := by
  rw [children, node_of_size_le h]

/-- Whatever is no document is in the tree. -/
theorem lt_size_of_kind (hkind : t.kind id = kind) (hne : kind ≠ .document) : id < t.size := by
  rcases Nat.lt_or_ge id t.size with hlt | hle
  · exact hlt
  · rw [Tree.kind, node_of_size_le hle] at hkind
    exact absurd hkind.symm hne

/-- Whatever has children is in the tree. -/
theorem lt_size_of_mem_children (h : c ∈ t.children p) : p < t.size := by
  rcases Nat.lt_or_ge p t.size with hlt | hle
  · exact hlt
  · rw [children_of_size_le hle] at h
    cases h

@[simp] theorem size_ofRoot : (ofRoot kind).size = 1 := rfl

@[simp] theorem size_push : (t.push p kind).size = t.size + 1 := by
  simp [push, size]

@[simp] theorem size_modifyKind {f : Kind → Kind} : (t.modifyKind id f).size = t.size := by
  simp [modifyKind, size]

/-- There is only the root. -/
theorem node_ofRoot : (ofRoot kind).node id = if id = 0 then { kind } else {} := by
  rcases id with - | id
  · rfl
  · rw [if_neg (by omega)]
    exact node_of_size_le (by rw [size_ofRoot]; omega)

/-- A new node comes last, and its parent has it as the last child. -/
theorem node_push (hp : p < t.size) : (t.push p kind).node id =
    if id = t.size then { kind, parent := some p }
    else if id = p then { t.node id with children := t.children id ++ [t.size] }
    else t.node id := by
  have hfind : (t.push p kind).nodes[id]? = if id = t.size then some { kind, parent := some p }
      else if p = id then t.nodes[id]?.map fun n => { n with children := n.children ++ [t.size] }
      else t.nodes[id]? := by
    unfold push
    rw [Array.getElem?_push, Array.size_modify, Array.getElem?_modify]
    rfl
  rw [node, hfind]
  by_cases hnew : id = t.size
  · rw [if_pos hnew, if_pos hnew]
    rfl
  · rw [if_neg hnew, if_neg hnew]
    by_cases hid : p = id
    · subst hid
      rw [if_pos rfl, if_pos rfl, children, node, Array.getElem?_eq_getElem hp]
      rfl
    · rw [if_neg hid, if_neg (Ne.symm hid)]
      rfl

/-- Only the kind of the node is changed. -/
theorem node_modifyKind {f : Kind → Kind} (h : id < t.size) : (t.modifyKind id f).node c =
    if c = id then { t.node c with kind := f (t.kind c) } else t.node c := by
  simp only [node, modifyKind, Tree.kind, Array.getElem?_modify]
  by_cases hid : id = c
  · subst hid
    obtain ⟨n, hn⟩ : ∃ n, t.nodes[id]? = some n := ⟨_, Array.getElem?_eq_getElem h⟩
    rw [if_pos rfl, if_pos rfl, hn]
    rfl
  · rw [if_neg hid, if_neg (Ne.symm hid)]

/-- Outside of the tree nothing is changed. -/
theorem modifyKind_of_size_le {f : Kind → Kind} (h : t.size ≤ id) : t.modifyKind id f = t := by
  unfold modifyKind
  congr 1
  apply Array.ext_getElem?
  intro i
  rw [Array.getElem?_modify]
  split
  · next hi => rw [← hi, Array.getElem?_eq_none h]; rfl
  · rfl

theorem kind_push (hp : p < t.size) :
    (t.push p kind).kind id = if id = t.size then kind else t.kind id := by
  rw [Tree.kind, node_push hp]
  split
  · rfl
  · split <;> rfl

theorem parent?_push (hp : p < t.size) :
    (t.push p kind).parent? id = if id = t.size then some p else t.parent? id := by
  rw [parent?, node_push hp]
  split
  · rfl
  · split <;> rfl

theorem children_push (hp : p < t.size) :
    (t.push p kind).children id = if id = p then t.children id ++ [t.size] else t.children id := by
  rw [children, node_push hp]
  by_cases hnew : id = t.size
  · have hnone : t.children id = [] := by rw [children, node_of_size_le (Nat.le_of_eq hnew.symm)]
    rw [if_pos hnew, if_neg (by omega), hnone]
  · rw [if_neg hnew]
    split <;> rfl

theorem kind_modifyKind {f : Kind → Kind} (h : id < t.size) :
    (t.modifyKind id f).kind c = if c = id then f (t.kind c) else t.kind c := by
  rw [Tree.kind, node_modifyKind h]
  split <;> rfl

@[simp] theorem parent?_modifyKind {f : Kind → Kind} :
    (t.modifyKind id f).parent? c = t.parent? c := by
  by_cases h : id < t.size
  · rw [parent?, node_modifyKind h]
    split <;> rfl
  · rw [modifyKind_of_size_le (Nat.le_of_not_lt h)]

@[simp] theorem children_modifyKind {f : Kind → Kind} :
    (t.modifyKind id f).children c = t.children c := by
  by_cases h : id < t.size
  · rw [children, node_modifyKind h]
    split <;> rfl
  · rw [modifyKind_of_size_le (Nat.le_of_not_lt h)]

/-! ## Links -/

/-- A tree that comes from a root by pushes and by changes of kinds. -/
inductive Built : Tree → Prop
  | ofRoot (kind : Kind) : Built (ofRoot kind)
  | push {t : Tree} {p : Nat} (kind : Kind) : Built t → p < t.size → Built (t.push p kind)
  | modifyKind {t : Tree} (id : Nat) (f : Kind → Kind) : Built t → Built (t.modifyKind id f)

/-- The links of a tree agree: a node is held by its parent and by no other node, and it comes after
its parent and after its earlier siblings. -/
structure Linked (t : Tree) : Prop where
  size_pos : 0 < t.size
  parent?_root : t.parent? root = none
  exists_parent : ∀ {c : Nat}, 0 < c → c < t.size → ∃ p, t.parent? c = some p
  parent_lt : ∀ {c p : Nat}, t.parent? c = some p → p < c
  mem_children_iff : ∀ {c p : Nat}, c ∈ t.children p ↔ t.parent? c = some p
  children_sorted : ∀ p : Nat, (t.children p).Pairwise fun c d : Nat => c < d

namespace Linked

/-- Whatever has a parent is in the tree. -/
theorem lt_size (_ : t.Linked) (hc : t.parent? c = some p) : c < t.size := by
  rcases Nat.lt_or_ge c t.size with hlt | hle
  · exact hlt
  · rw [parent?, node_of_size_le hle] at hc
    simp at hc

/-- A root alone has no links. -/
theorem ofRoot (kind : Kind) : (ofRoot kind).Linked := by
  have hparent : ∀ id, (Tree.ofRoot kind).parent? id = none := by
    intro id
    rw [parent?, node_ofRoot]
    split <;> rfl
  have hchildren : ∀ id, (Tree.ofRoot kind).children id = [] := by
    intro id
    rw [children, node_ofRoot]
    split <;> rfl
  constructor
  · exact Nat.one_pos
  · exact hparent root
  · intro c hpos hlt
    rw [size_ofRoot] at hlt
    omega
  · intro c p hc
    rw [hparent] at hc
    contradiction
  · intro c p
    rw [hparent, hchildren]
    simp
  · intro p
    rw [hchildren]
    exact .nil

/-- The next name is no child's. -/
theorem size_not_mem_children (h : t.Linked) (q : Nat) : t.size ∉ t.children q := by
  intro hmem
  exact Nat.lt_irrefl _ (h.lt_size (h.mem_children_iff.1 hmem))

/-- A new node is a child of its parent only, and all others stay where they are. -/
theorem mem_children_push_iff (h : t.Linked) (hp : p < t.size) {q : Nat} :
    c ∈ (t.push p kind).children q ↔ (t.push p kind).parent? c = some q := by
  rw [children_push hp, parent?_push hp]
  by_cases hc : c = t.size
  · have hfresh := h.size_not_mem_children q
    by_cases hq : q = p
    · simp [hc, hq]
    · simpa [hc, hq, hfresh] using Ne.symm hq
  · by_cases hq : q = p <;> simp [hc, hq, h.mem_children_iff]

/-- A new node is linked to its parent both ways. -/
theorem push (h : t.Linked) (kind : Kind) (hp : p < t.size) : (t.push p kind).Linked := by
  constructor
  · rw [size_push]
    omega
  · have hroot : root ≠ t.size := Nat.ne_of_lt h.size_pos
    rw [parent?_push hp, if_neg hroot]
    exact h.parent?_root
  · intro c hpos hlt
    rw [parent?_push hp]
    split
    · exact ⟨p, rfl⟩
    · next hne =>
      rw [size_push] at hlt
      exact h.exists_parent hpos (by omega)
  · intro c q hc
    rw [parent?_push hp] at hc
    split at hc
    · next hnew =>
      have hq := Option.some.inj hc
      omega
    · exact h.parent_lt hc
  · exact h.mem_children_push_iff hp
  · intro q
    rw [children_push hp]
    split
    · rw [List.pairwise_append]
      refine ⟨h.children_sorted q, List.pairwise_singleton _ _, ?_⟩
      intro c hc d hd
      rw [List.mem_singleton] at hd
      rw [hd]
      exact h.lt_size (h.mem_children_iff.1 hc)
    · exact h.children_sorted q

/-- Links do not depend on kinds. -/
theorem modifyKind (h : t.Linked) (id : Nat) (f : Kind → Kind) :
    (t.modifyKind id f).Linked := by
  constructor
  · rw [size_modifyKind]
    exact h.size_pos
  · rw [parent?_modifyKind]
    exact h.parent?_root
  · intro c hpos hlt
    rw [size_modifyKind] at hlt
    rw [parent?_modifyKind]
    exact h.exists_parent hpos hlt
  · intro c p hc
    rw [parent?_modifyKind] at hc
    exact h.parent_lt hc
  · intro c p
    rw [children_modifyKind, parent?_modifyKind]
    exact h.mem_children_iff
  · intro p
    rw [children_modifyKind]
    exact h.children_sorted p

/-- Children have larger numbers than their parent. -/
theorem lt_of_mem_children (h : t.Linked) (hc : c ∈ t.children p) : p < c :=
  h.parent_lt (h.mem_children_iff.1 hc)

/-- Children are in the tree. -/
theorem child_lt_size (h : t.Linked) (hc : c ∈ t.children p) : c < t.size :=
  h.lt_size (h.mem_children_iff.1 hc)

end Linked

/-- Whatever is built step by step has links that fit together. -/
theorem Built.linked (h : t.Built) : t.Linked := by
  induction h with
  | ofRoot kind => exact .ofRoot kind
  | push kind _ hp ih => exact ih.push kind hp
  | modifyKind id f _ ih => exact ih.modifyKind id f

/-! ## Upwards -/

/-- No chain of parents is longer than the number it starts with. -/
theorem Linked.chain_eq (h : t.Linked) {m n : Nat} (hm : id ≤ m) (hn : id ≤ n) :
    t.chain m id = t.chain n id := by
  -- A parent has a smaller name, so a chain is never longer than the name it starts at.
  induction m generalizing id n with
  | zero =>
    have hnone : t.parent? id = none := by
      rw [Nat.le_zero.1 hm]
      exact h.parent?_root
    cases n <;> simp [chain, hnone]
  | succ m ih =>
    cases hparent : t.parent? id with
    | none => cases n <;> simp [chain, hparent]
    | some p =>
      have hlt := h.parent_lt hparent
      cases n with
      | zero => exact absurd (Nat.lt_of_lt_of_le hlt hn) (Nat.not_lt_zero p)
      | succ n =>
        simp only [chain, hparent]
        rw [ih (Nat.le_of_lt_succ (Nat.lt_of_lt_of_le hlt hm))
          (Nat.le_of_lt_succ (Nat.lt_of_lt_of_le hlt hn))]

/-- The way up from a node without a parent ends there. -/
theorem ancestors_of_parent?_eq_none (h : t.parent? id = none) : t.ancestors id = [id] := by
  unfold ancestors
  cases t.size <;> simp [chain, h]

/-- The way up goes on from the parent. -/
theorem Linked.ancestors_of_parent? (h : t.Linked) (hc : t.parent? c = some p) :
    t.ancestors c = c :: t.ancestors p := by
  have hlt := h.parent_lt hc
  have hsize := h.lt_size hc
  have hchain : t.chain t.size c = t.chain (t.size + 1) c := h.chain_eq (by omega) (by omega)
  unfold ancestors
  rw [hchain]
  simp only [chain, hc]

/-- What a node takes over from its parent holds everywhere. -/
theorem Linked.induction_down (h : t.Linked) {P : NodeId → Prop}
    (top : ∀ id, t.parent? id = none → P id)
    (step : ∀ c p, t.parent? c = some p → P p → P c) (id : NodeId) : P id := by
  induction id using Nat.strongRecOn with
  | ind id ih =>
    cases hparent : t.parent? id with
    | none => exact top id hparent
    | some p => exact step id p hparent (ih p (h.parent_lt hparent))

/-- On the way up no number is larger. -/
theorem Linked.le_of_mem_ancestors (h : t.Linked) (hp : p ∈ t.ancestors id) : p ≤ id := by
  induction id using h.induction_down with
  | top id hparent =>
    rw [ancestors_of_parent?_eq_none hparent, List.mem_singleton] at hp
    exact Nat.le_of_eq hp
  | step c q hparent ih =>
    rw [h.ancestors_of_parent? hparent] at hp
    rcases List.mem_cons.1 hp with rfl | hp
    · exact Nat.le_refl _
    · exact Nat.le_trans (ih hp) (Nat.le_of_lt (h.parent_lt hparent))

/-- A node is in its parent, if that is a list, and in what the parent is in. -/
theorem Linked.enclosingLists_of_parent? (h : t.Linked) (hc : t.parent? c = some p) :
    t.enclosingLists c = (t.kind p).list?.toList ++ t.enclosingLists p := by
  unfold enclosingLists
  rw [h.ancestors_of_parent? hc, List.tail_cons]
  have hcons : t.ancestors p = p :: (t.ancestors p).tail := by
    cases hparent : t.parent? p with
    | none => rw [ancestors_of_parent?_eq_none hparent, List.tail_cons]
    | some q => rw [h.ancestors_of_parent? hparent, List.tail_cons]
  rw [hcons, List.filterMap_cons, List.tail_cons]
  cases (t.kind p).list? <;> rfl

/-! ## Downwards -/

/-- What a node takes over from its children holds everywhere. -/
theorem Linked.induction_up (h : t.Linked) {P : NodeId → Prop}
    (step : ∀ id, (∀ c ∈ t.children id, P c) → P id) (id : Nat) : P id := by
  -- Children have greater names, and there are no more than `t.size` of them.
  have hbound : ∀ room id : Nat, t.size ≤ room + id → P id := by
    intro room
    induction room with
    | zero =>
      intro id hle
      apply step
      intro c hc
      have hlt : id < t.size := lt_size_of_mem_children hc
      omega
    | succ room ih =>
      intro id hle
      apply step
      intro c hc
      have hlt : id < c := h.lt_of_mem_children hc
      exact ih c (by omega)
  exact hbound t.size id (by omega)

/-- A bound that is large enough makes no difference. -/
theorem Linked.outlineTo_eq (h : t.Linked) {m n : Nat} (hm : t.size ≤ m + id)
    (hn : t.size ≤ n + id) : t.outlineTo m id = t.outlineTo n id := by
  induction m generalizing id n with
  | zero => cases n <;> simp [outlineTo, children_of_size_le (t := t) (show t.size ≤ id by omega)]
  | succ m ih =>
    cases n with
    | zero => simp [outlineTo, children_of_size_le (t := t) (show t.size ≤ id by omega)]
    | succ n =>
      simp only [outlineTo]
      congr 1
      apply List.map_congr_left
      intro c hc
      have hlt : id < c := h.lt_of_mem_children hc
      have hsize : c < t.size := h.child_lt_size hc
      exact ih (by omega) (by omega)

/-- The outline of a node has those of its children. -/
theorem Linked.outline_eq (h : t.Linked) (id : Nat) :
    t.outline id = .node (t.kind id) ((t.children id).map t.outline) := by
  unfold outline
  rw [h.outlineTo_eq (m := t.size) (n := t.size + 1) (by omega) (by omega), outlineTo]

end StyledText.Markdown.Tree
