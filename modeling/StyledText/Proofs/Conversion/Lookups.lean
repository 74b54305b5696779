import StyledText.OrderedMap.Lemmas
import StyledText.Proofs.Conversion.Fault

/-!
# What is looked up among the attachments

A conversion looks an attachment up when it comes to an image, and not before. Images that the walk
does not come to, and those after the first fault, need none (`Conversion.LooksUp`).

* `mapM_congr_of_earlier`: two rows of steps agree if they do as long as nothing has failed.
* `toText_congr_of_looksUp`: attachments that agree on what is looked up give one result.
* `Fault.of_missing`: with more attachments there are no new faults.
* `toText_reads_attachments`: what follows for more attachments, and for one that was missing.
-/

namespace StyledText.Markdown

/-- Two rows of steps agree if each step does that comes after steps without a failure. -/
theorem mapM_congr_of_earlier {α β ε : Type} {f g : α → Except ε β} {row : List α}
    (hsame : ∀ before a after, row = before ++ a :: after →
      (∀ b ∈ before, ∃ y, f b = .ok y) → f a = g a) : row.mapM f = row.mapM g := by
  induction row with
  | nil => rfl
  | cons x rest ih =>
    have hx := hsame [] x rest rfl (by simp)
    rw [List.mapM_cons, List.mapM_cons, ← hx]
    cases hfx : f x with
    | error e => rfl
    | ok y =>
      -- what comes later also comes after `x`, which has not failed
      rw [ih fun before a after hrest hbefore => hsame (x :: before) a after (by rw [hrest]; rfl)
        (List.forall_mem_cons.2 ⟨⟨y, hfx⟩, hbefore⟩)]

namespace Conversion

variable {options : ConversionOptions} {attachments attachments' : Attachments} {t : Tree}
  {id : NodeId} {inherited : Attributes} {v : Visit} {e : ConversionError}

/-! ## What is looked up -/

/-- The conversion comes to an image with the given destination: the walk comes to it, and it meets
no fault before. -/
def LooksUp (c : Conversion) (t : Tree) (id : NodeId) (inherited : Attributes)
    (destination : String) : Prop :=
  ∃ v, t.Reaches (t.visitTop id) v ∧ v.role ≠ .item ∧
    (t.kind v.node).destination? = some destination ∧
    ∀ w e, t.Reaches (t.visitTop id) w → c.Fault t inherited w e → ¬ w.place < v.place

/-- Only images look at the attachments. -/
theorem runsAt_congr {s : Stop}
    (hsame : ∀ destination, s.part = .image →
      (t.kind s.visit.node).destination? = some destination →
      attachments.get? destination = attachments'.get? destination)
    (hshows : t.Shows s.visit s.part) :
    runsAt { options, attachments } t inherited s =
      runsAt { options, attachments := attachments' } t inherited s := by
  obtain ⟨v, part⟩ := s
  -- only images are looked up
  cases part with
  | separator | lead | leaf | html | blank => rfl
  | image =>
    obtain ⟨-, hsome⟩ := hshows
    obtain ⟨destination, hdestination⟩ := Option.isSome_iff_exists.1 hsome
    have hget := hsame destination rfl hdestination
    simp only [runsAt, hdestination, Option.getD_some, hget]
    rfl

/-- Attachments that agree on what is looked up give the same runs. -/
theorem gather_congr_of_looksUp (h : t.Linked)
    (hsame : ∀ destination, LooksUp { options, attachments } t id inherited destination →
      attachments.get? destination = attachments'.get? destination) :
    gather { options, attachments } t inherited (t.stopsFrom (t.visitTop id)) =
      gather { options, attachments := attachments' } t inherited
        (t.stopsFrom (t.visitTop id)) := by
  unfold gather
  apply congrArg
  apply mapM_congr_of_earlier
  intro before s after hsplit hbefore
  have hstop : s ∈ t.stopsFrom (t.visitTop id) := by
    rw [hsplit]
    exact List.mem_append_right before List.mem_cons_self
  obtain ⟨hreach, hshows⟩ := (Tree.mem_stopsFrom_iff h).1 hstop
  refine runsAt_congr (fun destination himage hdestination => ?_) hshows
  rw [himage] at hshows
  refine hsame destination ⟨s.visit, hreach, hshows.1, hdestination, ?_⟩
  intro w e hw hfault hlt
  -- an earlier fault is a stop in front of this one, but none of these has failed
  obtain ⟨part, hpart, hfails⟩ := fault_iff.1 hfault
  have hfaulty : (⟨w, part⟩ : Stop) ∈ t.stopsFrom (t.visitTop id) :=
    (Tree.mem_stopsFrom_iff h).2 ⟨hw, hpart⟩
  have hbetween : Stop.Before ⟨w, part⟩ s := .inl hlt
  obtain ⟨runs, hruns⟩ := hbefore _ (Tree.mem_of_stopsFrom_eq h hsplit hfaulty hbetween)
  rw [hfails] at hruns
  contradiction

/-! ## More attachments -/

/-- With more attachments there are no new faults. -/
theorem Fault.of_missing (hmissing : ∀ destination, attachments'.get? destination = none →
      attachments.get? destination = none)
    (hfault : Fault { options, attachments := attachments' } t inherited v e) :
    Fault { options, attachments } t inherited v e := by
  cases hfault with
  | image role kind named missing => exact .image role kind named (hmissing _ missing)
  | html role kind raw refused => exact .html role kind raw refused

/-- What is looked up in a walk without faults is found. -/
theorem LooksUp.exists_get? {c : Conversion} {destination : String}
    (hlooks : c.LooksUp t id inherited destination)
    (hnone : ∀ v e, t.Reaches (t.visitTop id) v → ¬ c.Fault t inherited v e) :
    ∃ a, c.attachments.get? destination = some a := by
  obtain ⟨v, hreach, hrole, hdestination, -⟩ := hlooks
  obtain ⟨title, alt, hkind, hnamed⟩ := Kind.destination?_eq_some_iff.1 hdestination
  cases hget : c.attachments.get? destination with
  | some a => exact ⟨a, rfl⟩
  | none => exact absurd (.image hrole hkind hnamed hget) (hnone v _ hreach)

/-- With an attachment for the first one that is missing, the first fault is a later one. -/
theorem FirstFault.lt_of_insert {destination : String} {a : Attachment} {w : Visit}
    (hfirst : FirstFault { options, attachments } t id inherited v
      (.attachmentMissing destination))
    (hlater : FirstFault { options, attachments := attachments.insert destination a } t id
      inherited w e) : v.place < w.place := by
  have hmissing : ∀ d, (attachments.insert destination a).get? d = none →
      attachments.get? d = none := by
    intro d hd
    rw [OrderedMap.get?_insert] at hd
    split at hd
    · contradiction
    · exact hd
  have hfault := hlater.fault.of_missing hmissing
  rcases hfirst.first w e hlater.reached hfault with rfl | hlt
  · -- the visit was at fault for what is now there
    have hsame := hfault.unique hfirst.fault
    subst hsame
    cases hlater.fault with
    | image _ _ _ missing => simp at missing
  · exact hlt

end Conversion

namespace Tree

/-- What a conversion reads of its attachments. -/
structure ReadsAttachments (t : Tree) (id : NodeId) (inherited : Attributes)
    (attachments : Attachments) (options : ConversionOptions) : Prop where
  /-- Others that agree on what is looked up give the same result. -/
  agree : ∀ attachments' : Attachments,
    (∀ destination,
      Conversion.LooksUp { options, attachments } t id inherited destination →
      attachments.get? destination = attachments'.get? destination) →
    t.toText id inherited attachments options = t.toText id inherited attachments' options
  /-- More of them leave what succeeds as it is. -/
  extend : ∀ attachments' : Attachments,
    (∀ destination a, attachments.get? destination = some a →
      attachments'.get? destination = some a) →
    ∀ text, t.toText id inherited attachments options = .ok text →
      t.toText id inherited attachments' options = .ok text
  /-- With the missing one in place, the conversion succeeds, or it fails further on. -/
  later : ∀ destination a,
    t.toText id inherited attachments options = .error (.attachmentMissing destination) →
    (∃ text, t.toText id inherited (attachments.insert destination a) options = .ok text) ∨
    ∃ e v w,
      t.toText id inherited (attachments.insert destination a) options = .error e ∧
      Conversion.FirstFault { options, attachments } t id inherited v
        (.attachmentMissing destination) ∧
      Conversion.FirstFault { options, attachments := attachments.insert destination a } t id
        inherited w e ∧
      v.place < w.place

/-- Attachments that agree on what is looked up give the same text or the same error. -/
theorem toText_congr_of_looksUp {t : Tree} (h : t.Linked) {id : NodeId} {inherited : Attributes}
    {attachments attachments' : Attachments} {options : ConversionOptions}
    (hsame : ∀ destination,
      Conversion.LooksUp { options, attachments } t id inherited destination →
      attachments.get? destination = attachments'.get? destination) :
    t.toText id inherited attachments options = t.toText id inherited attachments' options := by
  rw [toText_eq_gather h, toText_eq_gather h, Conversion.gather_congr_of_looksUp h hsame]

/-- A conversion looks attachments up only for the images it comes to before it fails. -/
theorem toText_reads_attachments {t : Tree} (h : t.Built) (id : NodeId) (inherited : Attributes)
    (attachments : Attachments) (options : ConversionOptions) :
    t.ReadsAttachments id inherited attachments options := by
  have hlinked := h.linked
  refine ⟨fun attachments' => toText_congr_of_looksUp hlinked, ?_, ?_⟩
  · intro attachments' hextends text htext
    -- a conversion that succeeds has no fault, so each lookup finds something
    have hnone : ∀ v e, t.Reaches (t.visitTop id) v →
        ¬ Conversion.Fault { options, attachments } t inherited v e := by
      intro v e hreach hfault
      obtain ⟨e', hfails⟩ := Conversion.exists_gather_eq_error hlinked hreach hfault
      rw [toText_eq_gather hlinked, hfails] at htext
      contradiction
    rw [← toText_congr_of_looksUp hlinked ?_, htext]
    intro destination hlooks
    obtain ⟨a, ha⟩ := hlooks.exists_get? hnone
    rw [ha, hextends destination a ha]
  · intro destination a hfails
    obtain ⟨v, hv⟩ := (toText_eq_error_iff hlinked).1 hfails
    cases htext : t.toText id inherited (attachments.insert destination a) options with
    | ok text => exact .inl ⟨text, rfl⟩
    | error e =>
      obtain ⟨w, hw⟩ := (toText_eq_error_iff hlinked).1 htext
      exact .inr ⟨e, v, w, rfl, hv, hw, hv.lt_of_insert hw⟩

/-- A document that shows one image twice and then another one. Two more are in an unstyled node
and in a quotation of raw markup. -/
def gallery : Tree :=
  ((((((((((ofRoot .document).push 0 (.unsupported "table")).push 1 (.image "cup.png" "" "")).push 0
    .paragraph).push 3 (.image "map.png" "" "")).push 3 (.image "map.png" "" "")).push 3
    (.image "plan.png" "" "")).push 0 .blockQuote).push 7 (.htmlBlock "<hr>")).push 7
    .paragraph).push 9 (.image "key.png" "" "")

/-- An attachment for the first image. -/
def galleryMap : Attachments := ({} : Attachments).insert "map.png" { name := "map" }

/-- Attachments for both images that are shown. -/
def galleryMaps : Attachments := galleryMap.insert "plan.png" { name := "plan" }

theorem gallery_built : gallery.Built := by
  unfold gallery
  repeat refine .push _ ?_ (by simp)
  exact .ofRoot _

/-- The images in the table and in the quotation are not come to. -/
theorem gallery_looksUp {c : Conversion} {destination : String}
    (hlooks : c.LooksUp gallery root {} destination) :
    destination = "map.png" ∨ destination = "plan.png" := by
  obtain ⟨v, hreach, hrole, hdestination, -⟩ := hlooks
  have hall : ∀ w ∈ gallery.visitsFrom (gallery.visitTop root),
      (gallery.kind w.node).destination? ∈ [none, some "map.png", some "plan.png"] := by decide
  have hmem := hall v ((mem_visitsFrom_iff gallery_built.linked).2 hreach)
  rw [hdestination] at hmem
  simpa using hmem

/-- The first image that is missing is the map, then it is the plan; the cup is not looked for. -/
theorem gallery_reads_attachments : gallery.Built ∧
    gallery.ReadsAttachments root {} {} {} ∧
    gallery.toText root {} {} {} = .error (.attachmentMissing "map.png") ∧
    gallery.toText root {} galleryMap {} = .error (.attachmentMissing "plan.png") ∧
    (∃ v w,
      Conversion.FirstFault { options := {}, attachments := {} } gallery root {} v
        (.attachmentMissing "map.png") ∧
      Conversion.FirstFault { options := {}, attachments := galleryMap } gallery root {} w
        (.attachmentMissing "plan.png") ∧
      v.place < w.place) ∧
    (gallery.toText root {} galleryMaps {}).isOk ∧
    gallery.toText root {} galleryMaps {} =
      gallery.toText root {} (galleryMaps.insert "cup.png" { name := "cup" }) {} := by
  have hreads : ∀ attachments, gallery.ReadsAttachments root {} attachments {} :=
    fun attachments => toText_reads_attachments gallery_built root {} attachments {}
  have hplan : gallery.toText root {} galleryMap {} = .error (.attachmentMissing "plan.png") := rfl
  refine ⟨gallery_built, hreads {}, rfl, hplan, ?_, rfl, ?_⟩
  · rcases (hreads {}).later "map.png" { name := "map" } rfl with
      ⟨text, htext⟩ | ⟨e, v, w, he, hv, hw, hlt⟩
    · exact absurd (htext.symm.trans hplan) (by simp)
    · rcases Except.error.inj (he.symm.trans hplan) with rfl
      exact ⟨v, w, hv, hw, hlt⟩
  · apply (hreads galleryMaps).agree
    intro destination hlooks
    have hcup : destination ≠ "cup.png" := by
      rcases gallery_looksUp hlooks with rfl | rfl <;> decide
    rw [OrderedMap.get?_insert, if_neg hcup]

end Tree

end StyledText.Markdown
