import Mathlib.Data.List.Induction
import StyledText.Proofs.Tree.Built
import StyledText.Proofs.Tree.Grammar

/-!
# What an image takes in

Events are `Balanced` if they have an end for every start; `exists_end` finds it.

An image makes something else of events than other nodes do (`Tree.absorb`). Text and breaks are
added to its description, and tags only count. Raw markup, references, rules and the like are
*strays*: they become nodes below the image. `Tree.absorbs_foldl` says what has become of a tree
after any number of events.
-/

namespace StyledText.Markdown

/-! ## Balance -/

/-- The number of open tags after an event, if the event does not end more than was open. -/
def Event.depth : Nat → Event → Option Nat
  | n, start _ => some (n + 1)
  | 0, stop => none
  | n + 1, stop => some n
  | n, _ => some n

/-- The number of open tags after events. -/
def depth (n : Nat) (events : List Event) : Option Nat := events.foldlM Event.depth n

/-- Every start has its end, and every end its start. -/
def Balanced (events : List Event) : Prop := depth 0 events = some 0

instance : DecidablePred Balanced := fun events =>
  inferInstanceAs (Decidable (depth 0 events = some 0))

section Balance

variable {e : Event} {events more : List Event} {k m n : Nat}

/-- The first event changes the depth, and the others go on from there. -/
theorem depth_cons_eq_some_iff :
    depth n (e :: events) = some m ↔ ∃ k, e.depth n = some k ∧ depth k events = some m := by
  rw [depth, List.foldlM_cons]
  exact Option.bind_eq_some_iff

/-- More events go on from the depth that the first ones come to. -/
theorem depth_append_eq_some_iff :
    depth n (events ++ more) = some m ↔ ∃ k, depth n events = some k ∧ depth k more = some m := by
  rw [depth, List.foldlM_append]
  exact Option.bind_eq_some_iff

/-- Only an end can end more than was open. -/
theorem Event.eq_stop_of_depth (h : e.depth n = none) : e = .stop ∧ n = 0 := by
  cases e with
  | stop =>
    cases n with
    | zero => exact ⟨rfl, rfl⟩
    | succ n => cases h
  | _ => cases h

/-- Deeper down, events change the depth likewise. -/
theorem Event.depth_add (h : e.depth n = some m) : e.depth (n + k) = some (m + k) := by
  cases e with
  | stop =>
    cases n with
    | zero => contradiction
    | succ n =>
      rcases Option.some.inj h with rfl
      rw [Nat.succ_add]
      rfl
  | start tag =>
    rcases Option.some.inj h with rfl
    rw [Event.depth, Nat.succ_add]
  | _ =>
    rcases Option.some.inj h with rfl
    rfl

/-- Tags that are open before make no difference. -/
theorem depth_add (h : depth n events = some m) : depth (n + k) events = some (m + k) := by
  induction events generalizing n with
  | nil =>
    rcases Option.some.inj h with rfl
    rfl
  | cons e rest ih =>
    obtain ⟨j, he, hrest⟩ := depth_cons_eq_some_iff.1 h
    exact depth_cons_eq_some_iff.2 ⟨j + k, Event.depth_add he, ih hrest⟩

/-- If in the end fewer tags are open, one of them has ended somewhere, with all that were opened
inside it. -/
theorem exists_end (h : depth (k + (n + 1)) events = some m) (hlt : m ≤ n) :
    ∃ inner after, events = inner ++ .stop :: after ∧ depth k inner = some 0 ∧
      depth n after = some m := by
  induction events generalizing k with
  | nil =>
    have hm := Option.some.inj h
    omega
  | cons e rest ih =>
    obtain ⟨j, he, hrest⟩ := depth_cons_eq_some_iff.1 h
    by_cases hend : e = .stop ∧ k = 0
    · rcases hend with ⟨rfl, rfl⟩
      rw [Nat.zero_add] at he
      rcases Option.some.inj he with rfl
      exact ⟨[], rest, rfl, rfl, hrest⟩
    · -- The event leaves the tag open, with `i` tags inside it.
      obtain ⟨i, hi, rfl⟩ : ∃ i, e.depth k = some i ∧ j = i + (n + 1) := by
        cases e with
        | stop =>
          cases k with
          | zero => exact absurd ⟨rfl, rfl⟩ hend
          | succ k =>
            refine ⟨k, rfl, ?_⟩
            rw [Nat.succ_add] at he
            exact (Option.some.inj he).symm
        | start tag =>
          refine ⟨k + 1, rfl, ?_⟩
          rw [← Option.some.inj he]
          omega
        | _ => exact ⟨k, rfl, (Option.some.inj he).symm⟩
      obtain ⟨inner, after, rfl, hinner, hafter⟩ := ih hrest
      exact ⟨e :: inner, after, rfl, depth_cons_eq_some_iff.2 ⟨i, hi, hinner⟩, hafter⟩

end Balance

/-! ## What an image takes in -/

/-- The node that an event becomes even inside an image. -/
def Event.stray? (e : Event) : Option Kind := if e.alt?.isSome then none else e.leaf?

/-- What strays into an image is no image, no text and no list. -/
theorem Event.of_stray? {e : Event} {kind : Kind} (h : e.stray? = some kind) :
    kind.isImage = false ∧ (∀ s, kind ≠ .text s) ∧ kind.list? = none := by
  cases e <;> simp [Event.stray?, Event.alt?, Event.leaf?] at h <;> subst h <;>
    simp [Kind.isImage, Kind.list?]

namespace Tree

/-- The tree with an event taken in by an image. -/
def absorb (image : Nat) (t : Tree) (e : Event) : Tree :=
  match e.alt?, e.stray? with
  | some s, _ => t.modifyKind image (Kind.appending s)
  | none, some kind => t.push image kind
  | none, none => t

/-- What an image makes of events: some are added to its description, some become nodes. -/
structure Absorbs (t t' : Tree) (image : Nat) (alt : String) (strays : List Kind) : Prop where
  size : t'.size = t.size + strays.length
  node : t'.node image =
    { t.node image with
      kind := (t.kind image).appending alt
      children := t.children image ++ List.range' t.size strays.length }
  rest : ∀ id : Nat, id < t.size → id ≠ image → t'.node id = t.node id
  strays : (List.range' t.size strays.length).map t'.node =
    strays.map fun kind => { kind, parent := some image }

namespace Absorbs

variable {t t' : Tree} {image : Nat} {alt : String} {strays : List Kind}

theorem refl (t : Tree) (image : Nat) : t.Absorbs t image "" [] where
  size := rfl
  node := by simp [Kind.appending_empty, kind, children]
  rest := fun _ _ _ => rfl
  strays := rfl

/-- The image stays in the tree. -/
theorem lt_size (h : t.Absorbs t' image alt strays) (himage : image < t.size) :
    image < t'.size := by
  rw [h.size]
  omega

/-- More text is added to the description. -/
theorem modifyKind (h : t.Absorbs t' image alt strays) (himage : image < t.size) (s : String) :
    t.Absorbs (t'.modifyKind image (Kind.appending s)) image (alt ++ s) strays := by
  have hlt := h.lt_size himage
  have hother : ∀ id : Nat, id ≠ image →
      (t'.modifyKind image (Kind.appending s)).node id = t'.node id := by
    intro id hne
    rw [node_modifyKind hlt, if_neg hne]
  constructor
  · rw [size_modifyKind, h.size]
  · rw [node_modifyKind hlt, if_pos rfl, Tree.kind, h.node, Kind.appending_appending]
  · intro id hid hne
    rw [hother id hne, h.rest id hid hne]
  · rw [← h.strays]
    refine List.map_congr_left ?_
    intro id hid
    -- the strays come after all nodes that were there, so none of them is the image
    have hle := (List.mem_range'_1.1 hid).1
    exact hother id (by omega)

/-- One more node is added to the children of the image. -/
theorem push (h : t.Absorbs t' image alt strays) (himage : image < t.size) (kind : Kind) :
    t.Absorbs (t'.push image kind) image alt (strays ++ [kind]) := by
  -- The new node comes last in the tree, so it is also the last child.
  have hlt := h.lt_size himage
  have hother : ∀ id : Nat, id < t'.size → id ≠ image →
      (t'.push image kind).node id = t'.node id := by
    intro id hid hne
    rw [node_push hlt, if_neg (by omega), if_neg hne]
  have hnames : List.range' t.size (strays ++ [kind]).length =
      List.range' t.size strays.length ++ [t'.size] := by
    rw [List.length_append, List.length_singleton, List.range'_1_concat, h.size]
  constructor
  · rw [size_push, h.size, List.length_append, List.length_singleton, Nat.add_assoc]
  · rw [node_push hlt, if_neg (by omega), if_pos rfl, hnames, children, h.node, List.append_assoc]
  · intro id hid hne
    rw [hother id (by rw [h.size]; omega) hne, h.rest id hid hne]
  · rw [hnames, List.map_append, List.map_append, ← h.strays, List.map_singleton,
      List.map_singleton, node_push hlt, if_pos rfl]
    congr 1
    refine List.map_congr_left ?_
    intro id hid
    have hbounds := List.mem_range'_1.1 hid
    exact hother id (by rw [h.size]; omega) (by omega)

/-- The nodes that come after those that were there are the strays. -/
theorem exists_stray (h : t.Absorbs t' image alt strays) {id : Nat} (hle : t.size ≤ id)
    (hlt : id < t'.size) : ∃ kind ∈ strays, t'.node id = { kind, parent := some image } := by
  have hmem : t'.node id ∈ (List.range' t.size strays.length).map t'.node := by
    refine List.mem_map_of_mem (List.mem_range'_1.2 ⟨hle, ?_⟩)
    rwa [← h.size]
  rw [h.strays] at hmem
  obtain ⟨kind, hkind, hnode⟩ := List.mem_map.1 hmem
  exact ⟨kind, hkind, hnode.symm⟩

end Absorbs

/-- Events inside an image add to its description or stray into it, in their order. -/
theorem absorbs_foldl {t : Tree} {image : Nat} (himage : image < t.size)
    (events : List Event) : t.Absorbs (events.foldl (absorb image) t) image
      (String.join (events.filterMap Event.alt?)) (events.filterMap Event.stray?) := by
  -- The induction is from the right: each event adds to what those before it have left.
  induction events using List.reverseRecOn with
  | nil => exact .refl t image
  | append_singleton events e ih =>
    rw [List.foldl_append, List.foldl_cons, List.foldl_nil, List.filterMap_append,
      List.filterMap_append, String.join_append]
    cases halt : e.alt? with
    | some s =>
      have hstray : e.stray? = none := by simp [Event.stray?, halt]
      have hstep := ih.modifyKind himage s
      simpa [absorb, halt, hstray] using hstep
    | none =>
      cases hstray : e.stray? with
      | some kind =>
        have hstep := ih.push himage kind
        simpa [absorb, halt, hstray] using hstep
      | none => simpa [absorb, halt, hstray] using ih

end Tree

end StyledText.Markdown
