import StyledText.Proofs.Tree.Lists
import StyledText.Proofs.Tree.OpenTags
import StyledText.Proofs.Tree.Zipper

/-!
# Inside a list

While a list is open, the levels above it follow the tags that are opened inside it: each tag has
a level, and on that of an item there may be one more, of an implicit paragraph (`Nested`). The tags
inside an image have none, they are only counted (`Zipper.InList`).

* `Zipper.InList.step`: each event keeps that up, unless it ends the list.
* `Zipper.InList.loosens_iff`: a paragraph loosens the list if the one open tag is an item.
-/

namespace StyledText.Markdown

/-! ## Levels that follow tags -/

/-- Levels that may differ in what they hold, and in the text of their kind. -/
structure Level.Alike (l l' : Level) : Prop where
  implicit : l'.implicit = l.implicit
  item : l'.kind = .item ↔ l.kind = .item
  paragraph : l'.kind = .paragraph ↔ l.kind = .paragraph
  list : l'.kind.list? = l.kind.list?
  image : l'.kind.isImage = l.kind.isImage

namespace Level.Alike

variable {l : Level}

theorem done (l : Level) (done : List Marked) : l.Alike { l with done } :=
  ⟨rfl, Iff.rfl, Iff.rfl, rfl, rfl⟩

theorem appending (l : Level) (s : String) : l.Alike { l with kind := l.kind.appending s } := by
  refine ⟨rfl, ?_, ?_, ?_, ?_⟩ <;> cases l.kind <;>
    simp [Kind.appending, Kind.list?, Kind.isImage]

theorem loosened (l : Level) : l.Alike { l with kind := l.kind.loosened } := by
  refine ⟨rfl, ?_, ?_, ?_, ?_⟩ <;> cases l.kind <;>
    simp [Kind.loosened, Kind.list?, Kind.isImage]

end Level.Alike

/-- Levels, innermost first, with a list as the outermost, and the tags that opened the others. -/
inductive Nested : List Level → List Tag → Prop
  | list {l : Level} (explicit : l.implicit = false) (kind : l.kind.list?.isSome) : Nested [l] []
  | tag {l : Level} {inner : List Level} {tag : Tag} {tags : List Tag}
    (explicit : l.implicit = false) (kind : l.kind = .item ↔ tag = .item)
    (h : Nested inner tags) : Nested (l :: inner) (tag :: tags)
  | implicit {l m : Level} {inner : List Level} {tags : List Tag}
    (implicit : l.implicit = true) (kind : l.kind = .paragraph) (item : m.kind = .item)
    (h : Nested (m :: inner) tags) : Nested (l :: m :: inner) tags

namespace Nested

variable {l l' : Level} {inner levels : List Level} {tag : Tag} {tags : List Tag}

/-- There is at least the level of the list. -/
theorem exists_cons (h : Nested levels tags) : ∃ l inner, levels = l :: inner := by
  cases h with
  | list | tag | implicit => exact ⟨_, _, rfl⟩

/-- The innermost level may hold something else. -/
theorem head (h : Nested (l :: inner) tags) (halike : l.Alike l') : Nested (l' :: inner) tags := by
  cases h with
  | list explicit kind =>
    refine .list (halike.implicit.trans explicit) ?_
    rwa [halike.list]
  | tag explicit kind h => exact .tag (halike.implicit.trans explicit) (halike.item.trans kind) h
  | implicit implicit kind item h =>
    exact .implicit (halike.implicit.trans implicit) (halike.paragraph.2 kind) item h

/-- The level of an item is not the list itself, and no implicit paragraph. -/
theorem of_item (h : Nested (l :: inner) tags) (hitem : l.kind = .item) :
    ∃ rest, tags = .item :: rest ∧ l.implicit = false ∧ Nested inner rest := by
  cases h with
  | list _ kind =>
    rw [hitem] at kind
    cases kind
  | tag explicit kind h =>
    obtain rfl := kind.1 hitem
    exact ⟨_, rfl, explicit, h⟩
  | implicit _ kind =>
    rw [hitem] at kind
    cases kind

/-- A node that a tag has opened is the one of the innermost tag. -/
theorem of_explicit (h : Nested (l :: inner) (tag :: tags)) (explicit : l.implicit = false) :
    (l.kind = .item ↔ tag = .item) ∧ Nested inner tags := by
  cases h with
  | tag _ kind h => exact ⟨kind, h⟩
  | implicit himplicit =>
    rw [explicit] at himplicit
    cases himplicit

/-- Right inside the list, there is no room for an implicit paragraph. -/
theorem eq_singleton (h : Nested levels []) :
    ∃ l, levels = [l] ∧ l.implicit = false ∧ l.kind.list?.isSome := by
  cases h with
  | list explicit kind => exact ⟨_, rfl, explicit, kind⟩
  | implicit _ _ item h =>
    obtain ⟨_, htags, -⟩ := h.of_item item
    cases htags

/-- At the level of the list no tag is open. -/
theorem tags_eq_nil (h : Nested [l] tags) : tags = [] := by
  cases h with
  | list => rfl
  | tag _ _ h => cases h

/-- Neither the list nor an item is an image, nor is an implicit paragraph in one. -/
theorem isImage_eq_false (h : Nested (l :: inner) tags) (htags : ∀ tag ∈ tags.head?, tag = .item) :
    l.kind.isImage = false := by
  cases h with
  | list _ kind =>
    obtain ⟨_, _, _, hkind⟩ := Kind.exists_list kind
    rw [hkind]
    rfl
  | tag _ kind =>
    rw [kind.2 (htags _ rfl)]
    rfl
  | implicit _ kind =>
    rw [kind]
    rfl

/-- Outside of an item there is a level to be loosened. -/
theorem loosenHead (h : Nested (l :: inner) tags) (hitem : l.kind = .item) :
    ∃ m rest, inner = m :: rest ∧
      Nested (l :: { m with kind := m.kind.loosened } :: rest) tags := by
  obtain ⟨tags, rfl, explicit, hinner⟩ := h.of_item hitem
  obtain ⟨m, rest, rfl⟩ := hinner.exists_cons
  exact ⟨m, rest, rfl, .tag explicit (iff_of_true hitem rfl) (hinner.head (.loosened m))⟩

end Nested

namespace Level

/-- Levels are counted together. -/
theorem widthAll_append (levels outer : List Level) :
    widthAll (levels ++ outer) = widthAll levels + widthAll outer := by
  induction levels with
  | nil => rw [List.nil_append, widthAll, Nat.zero_add]
  | cons l rest ih => rw [List.cons_append, widthAll_cons, widthAll_cons, ih, Nat.add_assoc]

/-- Every level has a node. -/
theorem widthAll_lt_cons (l : Level) (outer : List Level) :
    widthAll outer < widthAll (l :: outer) := by
  rw [widthAll_cons, width]
  omega

/-- Levels that add no node are none. -/
theorem eq_nil_of_widthAll_append {levels outer : List Level}
    (h : widthAll (levels ++ outer) = widthAll outer) : levels = [] := by
  cases levels with
  | nil => rfl
  | cons l rest =>
    rw [List.cons_append, widthAll_cons, widthAll_append, width] at h
    omega

end Level

namespace Zipper

/-- What loosens a list in a draft, told of the zipper. -/
theorem draft_loosens_iff {z : Zipper} {e : Event} {id : NodeId} : z.draft.Loosens e id ↔
    e = .start .paragraph ∧ z.inImage = false ∧ z.closeImplicit.top.kind = .item ∧
      Level.parentIn z.closeImplicit.outer = some id := by
  have hparent : z.draft.tree.parent? z.draft.closeImplicit.top =
      Level.parentIn z.closeImplicit.outer := by
    rw [← Draft.tree_closeImplicit, draft_closeImplicit, draft_parent?_top]
  have hkind : z.draft.closeImplicit.topKind = z.closeImplicit.top.kind := by
    rw [draft_closeImplicit, draft_topKind]
  rw [← draft_inImage, ← hparent, ← hkind]
  constructor
  · rintro ⟨he, himage, hitem, hid⟩
    exact ⟨he, himage, hitem, hid⟩
  · rintro ⟨he, himage, hitem, hid⟩
    exact ⟨he, himage, hitem, hid⟩

/-! ## Steps inside a list -/

/-- A list is open, its parent is the first of the levels `below`, and the levels above it follow
the tags `shown`. The tags `hidden`, opened after those, are in an image. -/
structure InList (z : Zipper) (below : List Level) (hidden shown : List Tag) : Prop where
  outer : ∃ inner, z.outer = inner ++ below ∧ Nested (z.top :: inner) shown
  counted : hidden.length = z.hidden
  inImage : hidden ≠ [] → z.inImage

namespace InList

variable {z z' : Zipper} {below : List Level} {hidden shown tags : List Tag} {e : Event}

/-- Outside of images, no tag is hidden. -/
theorem hidden_eq_nil (h : z.InList below hidden shown) (himage : z.inImage = false) :
    hidden = [] := by
  by_contra hne
  rw [h.inImage hne] at himage
  cases himage

/-- Only what the innermost node holds has changed. -/
theorem of_top (h : z.InList below hidden shown) (htop : z.top.Alike z'.top)
    (houter : z'.outer = z.outer) (hhidden : z'.hidden = z.hidden) :
    z'.InList below hidden shown := by
  obtain ⟨inner, hinner, hnested⟩ := h.outer
  refine ⟨⟨inner, houter.trans hinner, hnested.head htop⟩, h.counted.trans hhidden.symm, ?_⟩
  intro hne
  rw [Zipper.inImage, htop.image]
  exact h.inImage hne

theorem addLeaf (h : z.InList below hidden shown) (kind : Kind) :
    (z.addLeaf kind).InList below hidden shown := h.of_top (.done _ _) rfl rfl

theorem extend (h : z.InList below hidden shown) (s : String) :
    (z.extend s).InList below hidden shown := h.of_top (.appending _ s) rfl rfl

theorem addTextNode (h : z.InList below hidden shown) (s : String) :
    (z.addTextNode s).InList below hidden shown := by
  unfold Zipper.addTextNode
  split
  · exact h.of_top (.done _ _) rfl rfl
  · exact h.addLeaf _

theorem ensureInline (h : z.InList below hidden shown) :
    z.ensureInline.InList below hidden shown := by
  unfold Zipper.ensureInline
  split
  · next hitem =>
    obtain ⟨inner, hinner, hnested⟩ := h.outer
    obtain rfl := h.hidden_eq_nil (by rw [Zipper.inImage, hitem]; rfl)
    refine ⟨⟨z.top :: inner, ?_, .implicit rfl rfl hitem hnested⟩, h.counted, absurd rfl⟩
    exact congrArg (z.top :: ·) hinner
  · exact h

theorem addInline (h : z.InList below hidden shown) (kind : Kind) :
    (z.addInline kind).InList below hidden shown := h.ensureInline.addLeaf kind

theorem addText (h : z.InList below hidden shown) (s : String) :
    (z.addText s).InList below hidden shown := by
  unfold Zipper.addText
  split
  · exact h.extend s
  · exact h.extend s
  · exact h.extend s
  · exact h.ensureInline.addTextNode s

/-- After closing what is implicit, the innermost node is one that a tag has opened. -/
theorem closeImplicit (h : z.InList below hidden shown) :
    z.closeImplicit.InList below hidden shown ∧ z.closeImplicit.top.implicit = false := by
  unfold Zipper.closeImplicit
  split
  · next himplicit =>
    -- Only what stands in an item is implicit, so the level below it is the one of an item.
    rcases z with ⟨top, outer, _⟩
    obtain ⟨inner, rfl, hnested⟩ := h.outer
    cases hnested with
    | list explicit | tag explicit =>
      rw [explicit] at himplicit
      cases himplicit
    | implicit _ kind item hnested =>
      obtain rfl := h.hidden_eq_nil (by rw [Zipper.inImage, kind]; rfl)
      obtain ⟨_, -, explicit, -⟩ := hnested.of_item item
      exact ⟨⟨⟨_, rfl, hnested.head (.done _ _)⟩, h.counted, absurd rfl⟩, explicit⟩
  · next himplicit => exact ⟨h, Bool.eq_false_iff.2 himplicit⟩

theorem loosen (h : z.InList below hidden shown) : z.loosen.InList below hidden shown := by
  unfold Zipper.loosen
  split
  · next hitem =>
    obtain ⟨inner, hinner, hnested⟩ := h.outer
    obtain ⟨m, rest, rfl, hloose⟩ := hnested.loosenHead hitem
    refine ⟨⟨_, ?_, hloose⟩, h.counted, h.inImage⟩
    rw [hinner]
    rfl
  · exact h

theorem openNode (h : z.InList below [] shown) {kind : Kind} {tag : Tag}
    (hkind : kind = .item ↔ tag = .item) :
    (z.openNode kind false).InList below [] (tag :: shown) := by
  obtain ⟨inner, hinner, hnested⟩ := h.outer
  refine ⟨⟨z.top :: inner, ?_, .tag rfl hkind hnested⟩, h.counted, absurd rfl⟩
  exact congrArg (z.top :: ·) hinner

/-- A tag opens its node inside the list. -/
theorem openTag (h : z.InList below [] shown) (tag : Tag) :
    (z.openTag tag).InList below [] (tag :: shown) := by
  have hroom : (if tag.isInline then z.ensureInline else z.closeImplicit).InList below []
      shown := by
    split
    · exact h.ensureInline
    · exact h.closeImplicit.1
  have hkind : tag.kind = .item ↔ tag = .item := by
    cases tag with
    | list start => cases start <;> simp [Tag.kind]
    | _ => simp [Tag.kind]
  unfold Zipper.openTag
  dsimp only
  split
  · exact hroom.loosen.openNode hkind
  · exact hroom.openNode hkind

/-- An end closes the node of the innermost tag. -/
theorem close {tag : Tag} (h : z.InList below [] (tag :: shown))
    (explicit : z.top.implicit = false) : z.close.InList below [] shown := by
  rcases z with ⟨top, outer, _⟩
  obtain ⟨inner, rfl, hnested⟩ := h.outer
  obtain ⟨-, hinner⟩ := hnested.of_explicit explicit
  obtain ⟨m, rest, rfl⟩ := hinner.exists_cons
  exact ⟨⟨rest, rfl, hinner.head (.done _ _)⟩, h.counted, absurd rfl⟩

/-- An event that does not end the list leaves it open. -/
theorem step (h : z.InList below hidden shown) (he : e.nest (hidden ++ shown) = some tags) :
    ∃ hidden' shown', tags = hidden' ++ shown' ∧ (z.step e).InList below hidden' shown' := by
  -- most events neither start nor end anything
  have hstays : ∀ {z' : Zipper}, z'.InList below hidden shown → tags = hidden ++ shown →
      ∃ hidden' shown', tags = hidden' ++ shown' ∧ z'.InList below hidden' shown' :=
    fun hz' htags => ⟨_, _, htags, hz'⟩
  cases e with
  | start tag =>
    cases Option.some.inj he
    rw [Zipper.step]
    split
    · next himage =>
      refine ⟨tag :: hidden, shown, rfl, h.outer, ?_, fun _ => himage⟩
      rw [List.length_cons, h.counted]
    · next himage =>
      obtain rfl := h.hidden_eq_nil (Bool.eq_false_iff.2 himage)
      exact ⟨[], tag :: shown, rfl, h.openTag tag⟩
  | stop =>
    -- the end is that of a hidden tag, if there is one
    rw [Zipper.step, ← h.counted]
    cases hidden with
    | nil =>
      rw [if_neg (by simp)]
      cases shown with
      | nil => cases he
      | cons tag shown =>
        cases Option.some.inj he
        exact ⟨[], _, rfl, h.closeImplicit.1.close h.closeImplicit.2⟩
    | cons tag hidden =>
      have himage := h.inImage (List.cons_ne_nil tag hidden)
      rw [if_pos (by simp [himage])]
      cases Option.some.inj he
      exact ⟨hidden, shown, rfl, h.outer, rfl, fun _ => himage⟩
  | text s => exact hstays (h.addText s) (Option.some.inj he).symm
  | html s =>
    refine hstays ?_ (Option.some.inj he).symm
    rw [Zipper.step]
    split
    · exact h.addText s
    · exact h.addInline _
  | code | softBreak | hardBreak =>
    refine hstays ?_ (Option.some.inj he).symm
    rw [Zipper.step]
    split
    · exact h.extend _
    · exact h.addInline _
  | rule => exact hstays (h.closeImplicit.1.addLeaf _) (Option.some.inj he).symm
  | inlineHtml | footnoteReference | taskListMarker | math =>
    exact hstays (h.addInline _) (Option.some.inj he).symm

/-! ## What loosens the list -/

/-- A paragraph loosens the list if it starts while the one open tag is an item. -/
theorem loosens_iff (h : z.InList below hidden shown) :
    z.draft.Loosens e (Level.widthAll below) ↔
      e = .start .paragraph ∧ hidden ++ shown = [.item] := by
  obtain ⟨⟨inner, hinner, hnested⟩, -, -⟩ := h.closeImplicit.1
  rw [draft_loosens_iff, hinner]
  constructor
  · rintro ⟨rfl, himage, hitem, hparent⟩
    rw [h.hidden_eq_nil himage]
    obtain ⟨tags, rfl, -, hnested⟩ := hnested.of_item hitem
    -- the parent of the item is the list, so nothing is open between them
    obtain ⟨m, rest, rfl⟩ := hnested.exists_cons
    obtain rfl := Level.eq_nil_of_widthAll_append (Option.some.inj hparent)
    rw [hnested.tags_eq_nil]
    exact ⟨rfl, rfl⟩
  · rintro ⟨rfl, htags⟩
    have hshown : hidden = [] ∧ shown = [.item] := by
      rcases List.append_eq_singleton_iff.1 htags with hshown | ⟨rfl, rfl⟩
      · exact hshown
      · obtain ⟨_, -, htop⟩ := h.outer
        have himage := h.inImage (List.cons_ne_nil _ _)
        rw [Zipper.inImage, htop.isImage_eq_false (by simp)] at himage
        cases himage
    obtain ⟨rfl, rfl⟩ := hshown
    -- an implicit paragraph is closed now, so the innermost level is that of the item
    obtain ⟨kind, hlist⟩ := hnested.of_explicit h.closeImplicit.2
    obtain ⟨l, rfl, -, -⟩ := hlist.eq_singleton
    obtain ⟨_, -, htop⟩ := h.outer
    exact ⟨rfl, htop.isImage_eq_false (by simp), kind.2 rfl, rfl⟩

end InList

end Zipper

/-! ## After the list -/

namespace Draft

namespace Ended

variable {d d' : Draft} {id : NodeId} {e : Event}

/-- A closed node stays closed. -/
theorem of_keeps (h : d.Ended id) {images : List Nat} (hkeeps : d.Keeps d' images) :
    d'.Ended id := h.of_frames hkeeps.size_le hkeeps.frames

/-- A new node is another one. -/
theorem openNode (h : d.Ended id) (kind : Kind) (implicit : Bool) :
    (d.openNode kind implicit).Ended id := by
  refine h.of_frames (by simp [Draft.openNode]) ?_
  intro frame hframe
  rcases List.mem_cons.1 hframe with rfl | hframe
  · exact .inr (Nat.le_refl _)
  · exact .inl hframe

/-- No event opens a closed node again. -/
theorem step (h : d.Ended id) (hregular : d.Regular) (e : Event) : (d.step e).Ended id := by
  -- An event that keeps what is settled, the start of an image, and inside an image all else or its
  -- end.
  rcases hregular.step_cases e with ⟨-, hkeeps⟩ | ⟨houtside, destination, title, rfl⟩ |
    ⟨image, outer, hinside, ⟨m, hdepth⟩ | ⟨rfl, hhidden⟩⟩
  · exact h.of_keeps hkeeps
  · rw [houtside.step_image]
    exact (h.of_keeps (Keeps.ensureInline houtside.sound)).openNode _ false
  · rw [hinside.step_eq hdepth]
    have hsize := (Tree.absorbs_foldl hinside.lt_size [e]).size
    exact h.of_frames (Nat.le.intro hsize.symm) fun frame hframe => .inl hframe
  · rw [hinside.step_stop hhidden]
    refine h.of_frames (Nat.le_refl _) ?_
    intro frame hframe
    rw [hinside.frames]
    exact .inl (List.mem_cons_of_mem _ hframe)

/-- Only open nodes hold what is new, so a closed list is not loosened. -/
theorem not_loosens {z : Zipper} (h : z.draft.Ended id) (hsound : z.draft.Sound) :
    ¬ z.draft.Loosens e id := by
  intro hloosens
  obtain ⟨-, -, -, hparent⟩ := Zipper.draft_loosens_iff.1 hloosens
  have hended := h.of_keeps (Keeps.closeImplicit hsound)
  rw [Zipper.draft_closeImplicit] at hended
  rcases hz : z.closeImplicit with ⟨top, outer, hidden⟩
  rw [hz] at hparent hended
  -- the parent of what is open is open, so it is the root or has a frame
  cases outer with
  | nil => cases hparent
  | cons l outer =>
    obtain rfl := Option.some.inj hparent
    cases outer with
    | nil => exact hended.ne_root rfl
    | cons m outer =>
      exact hended.closed ⟨_, l.implicit⟩ (List.mem_cons_of_mem _ List.mem_cons_self) rfl

end Ended

/-- An end changes no node. -/
theorem tree_step_stop (d : Draft) : (d.step .stop).tree = d.tree := by
  rw [Draft.step]
  split
  · rfl
  · exact d.tree_closeImplicit

end Draft

/-- The names of open nodes are among those of their levels. -/
theorem Level.id_le_of_mem_frames {l : Level} {outer : List Level} {frame : Frame}
    (h : frame ∈ Level.frames (l :: outer)) : frame.id ≤ Level.widthAll outer := by
  induction outer generalizing l with
  | nil => cases h
  | cons m outer ih =>
    rcases List.mem_cons.1 h with rfl | h
    · exact Nat.le_refl _
    · exact Nat.le_trans (ih h) (Nat.le_add_left _ _)

/-- The event that ends the list closes it. -/
theorem Zipper.InList.ended_stop {z : Zipper} {l : Level} {below : List Level}
    (h : z.InList (l :: below) [] []) :
    (z.draft.step .stop).Ended (Level.widthAll (l :: below)) := by
  rcases z with ⟨top, outer, hidden⟩
  obtain ⟨inner, rfl, hnested⟩ := h.outer
  obtain ⟨_, hlist, hexplicit, -⟩ := hnested.eq_singleton
  obtain ⟨rfl, rfl⟩ := List.cons.inj hlist
  have explicit : top.implicit = false := hexplicit
  obtain rfl : 0 = hidden := h.counted
  have hpos : 0 < Level.widthAll (l :: below) :=
    Nat.lt_of_le_of_lt (Nat.zero_le _) (Level.widthAll_lt_cons l below)
  refine ⟨?_, Nat.ne_of_gt hpos, ?_⟩
  · rw [Draft.tree_step_stop]
    change _ < (Zipper.tree _).size
    rw [Zipper.size_tree]
    exact Level.widthAll_lt_cons top (l :: below)
  · intro frame hframe
    have hstep : Zipper.step ⟨top, [] ++ l :: below, 0⟩ .stop =
        ⟨l.append (.node top.kind top.implicit top.done), below, 0⟩ := by
      rw [Zipper.step, if_neg (by simp), Zipper.closeImplicit, if_neg (by simp [explicit])]
      rfl
    rw [draft_step, hstep] at hframe
    -- only the levels below the list are open now, and they have smaller names
    have hle : frame.id ≤ Level.widthAll below := Level.id_le_of_mem_frames hframe
    exact Nat.ne_of_lt (Nat.lt_of_le_of_lt hle (Level.widthAll_lt_cons l below))

end StyledText.Markdown
