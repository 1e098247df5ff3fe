import Milp.Proofs.Document.Soundness
import Milp.Proofs.Json.Reading

/-! Model documents. Declarations survive being written and read, whether as a JSON value or as a
text, and whatever is read from a text can be written again. -/
namespace Milp.Document

/-- Whether a value is written to a text that is read as the value, given that it is nested no
deeper than texts may be. -/
def Rereadable (j : Json) : Prop := j.depth ≤ Json.maxDepth → Json.read j.pretty = ⟨j, false⟩

-- Not every float is rereadable: its text is scaled in double arithmetic, and `1e-23` is read as
-- the double above the one that it is written for.
example : (Json.float (.ofBits 4262707295203537489)).pretty = "1e-23" := by decide +kernel

example : Json.read "1e-23" = ⟨.float (.ofBits 4262707295203537490), false⟩ := rfl

/-- A model that a text describes is finite and checked, and written within the nesting of texts. -/
theorem ofText_readModel {text : String} {d : ModelData} (h : ofText readModel text = .ok d) :
    d.Finite ∧ d.Checked ∧ (writeModel d).depth ≤ Json.maxDepth := by
  have hread : readModel .text (Json.read text).value = .ok d := by
    rw [ofText] at h
    split at h
    · cases h
    · rename_i a ha
      split at h
      · cases h
      · cases h
        exact ha
  obtain ⟨hclosed, -⟩ := readRecord_eq_ok hread
  obtain ⟨hfinite, hdepth⟩ := Json.sound_read text
  obtain ⟨hgood, hwritten⟩ := accepts_model .text _ d hread
  obtain ⟨hd, hchecked⟩ := hgood hfinite
  refine ⟨hd, hchecked, hwritten.trans (max_le ?_ (hdepth hclosed))⟩
  decide

theorem ofText_of_reads {α : Type} {read : Source → Json → Except Fault α} {text : String}
    {j : Json} {a : α} (htext : Json.read text = ⟨j, false⟩) (h : Reads read j a) :
    ofText read text = .ok a := by
  have hread : read .text j = .ok a := h _ .same .text
  simp only [ofText, htext, hread, Bool.false_eq_true, if_false]

/-- Finite declarations with parameters that can be made are read from the JSON value that is
written of them, with the fields of objects in any order. Every model that a text describes is of
this kind, so it is read again from the text that is written of it. -/
theorem roundTrip :
    (∀ d : ModelData, d.Finite → d.Checked →
      (∀ source, readModel source (writeModel d) = .ok d) ∧
        ofValue readModel (writeModel d) = .ok d) ∧
      ∀ text d, ofText readModel text = .ok d →
        d.Finite ∧ d.Checked ∧ (writeModel d).depth ≤ Json.maxDepth ∧
          ofValue readModel (writeModel d) = .ok d ∧
          (Rereadable (writeModel d) → ofText readModel (modelText d) = .ok d) := by
  refine ⟨fun d hfinite hchecked => ?_, fun text d h => ?_⟩
  · have hreads := reads_model hfinite hchecked
    exact ⟨hreads _ .same, hreads _ .normal .value⟩
  · obtain ⟨hfinite, hchecked, hdepth⟩ := ofText_readModel h
    have hreads := reads_model hfinite hchecked
    refine ⟨hfinite, hchecked, hdepth, hreads _ .normal .value, fun hlayer => ?_⟩
    exact ofText_of_reads (hlayer hdepth) hreads

/-- A model with most of what documents can hold: data and numbers of both kinds, a condition, an
empty index list and a missing one, and an empty list of quantifiers. -/
def stocked : ModelData where
  name := "stock"
  sets := [⟨"I", [.int 1, .str "a"]⟩]
  parameters := [⟨"level", ["I"], .listed [⟨[.int 1], 2⟩]⟩, ⟨"scale", [], .scalar (.float 2)⟩]
  vars := [{ name := "x", indices := ["I"], domain := .integer, lower := some 0.5 }]
  constraints :=
    [⟨"flow", ⟨.indexComparison,
      .aggregate ⟨.sum, .refAt .variable "x" [.indexVar "i"], [⟨"i", "I"⟩],
        some ⟨.comparison, .indexVar "i", .lt, .number (.int 2)⟩⟩,
      .ge, .refAt .parameter "scale" []⟩, some []⟩]
  objective := some ⟨"cost", .unary .negate (.ref .parameter "scale"), .max⟩

theorem stocked_checked : stocked.Checked := by
  refine List.forall_mem_cons.mpr ⟨rfl, List.forall_mem_cons.mpr ⟨rfl, nofun⟩⟩

theorem stocked_finite : stocked.Finite where
  parameters := by
    have hscale : (ParameterValues.scalar (.float 2)).Finite := by
      rintro _ ⟨⟩
      decide +kernel
    have hlevel : (ParameterValues.listed [⟨[.int 1], 2⟩]).Finite :=
      List.forall_mem_singleton.mpr (by decide +kernel)
    exact List.forall_mem_cons.mpr ⟨hlevel, List.forall_mem_singleton.mpr hscale⟩
  vars := by
    refine List.forall_mem_singleton.mpr ⟨?_, by intro x hx; cases hx⟩
    rintro _ ⟨⟩
    decide +kernel
  constraints := by
    have hbound : (Expr.refAt .parameter "scale" []).Finite := Expr.finite_refAt.mpr nofun
    have hposition : (Expr.refAt .variable "x" [.indexVar "i"]).Finite :=
      Expr.finite_refAt.mpr (List.forall_mem_singleton.mpr (Expr.finite_indexVar "i"))
    refine List.forall_mem_singleton.mpr
      ⟨⟨Expr.finite_aggregate.mpr ⟨hposition, ?_⟩, hbound⟩, nofun⟩
    rintro _ ⟨⟩
    exact ⟨Expr.finite_indexVar "i", Expr.finite_number.mpr nofun⟩
  objective := by
    rintro _ ⟨⟩
    exact Expr.finite_unary.mpr (Expr.finite_ref _ _)

def priced : ModelData := { name := "m", parameters := [⟨"p", [], .scalar (.float 1.5)⟩] }

def pricedText : String := "\x7b\"name\":\"m\",\"parameters\":[[\"p\",[],1.5]]\x7d"

theorem ofText_priced : ofText readModel pricedText = .ok priced := by
  have htext : Json.read pricedText = ⟨.object [("name", .string "m"),
      ("parameters", .array [.array [.string "p", .array [], .float 1.5]])], false⟩ := rfl
  have hvalue : readModel .text (.object [("name", .string "m"),
      ("parameters", .array [.array [.string "p", .array [], .float 1.5]])]) = .ok priced := rfl
  simp only [ofText, htext, hvalue, Bool.false_eq_true, if_false]

set_option maxRecDepth 4000 in
theorem rereadable_priced : Rereadable (writeModel priced) := by
  have hpretty : (writeModel priced).pretty =
      "\x7b\n  \"name\": \"m\",\n  \"sets\": [],\n  \"parameters\": [\n    \x7b\n" ++
        "      \"name\": \"p\",\n      \"indices\": [],\n      \"values\": 1.5\n    \x7d\n  ],\n" ++
        "  \"variables\": [],\n  \"constraints\": [],\n  \"objective\": null\n\x7d" := by
    decide +kernel
  intro _
  rw [hpretty]
  rfl

theorem roundTrip_stocked :
    (stocked.Finite ∧ stocked.Checked ∧
      (∀ source, readModel source (writeModel stocked) = .ok stocked) ∧
      ofValue readModel (writeModel stocked) = .ok stocked) ∧
    ofText readModel pricedText = .ok priced ∧ Rereadable (writeModel priced) ∧
      ofText readModel (modelText priced) = .ok priced := by
  obtain ⟨hsource, hvalue⟩ := roundTrip.1 stocked stocked_finite stocked_checked
  obtain ⟨-, -, -, -, htext⟩ := roundTrip.2 pricedText priced ofText_priced
  exact ⟨⟨stocked_finite, stocked_checked, hsource, hvalue⟩, ofText_priced, rereadable_priced,
    htext rereadable_priced⟩

end Milp.Document
