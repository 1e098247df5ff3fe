import Milp.Json.Reader
import Milp.Proofs.Decimal.Finite
import Milp.Proofs.Json.Tree

/-! What texts are read as. A reader adds no infinity and no NaN, and a container that it closes is
nested at most as deep as it opens containers. -/
namespace Milp.Json

/-! ### Tokens -/

def Token.Plain (t : Token) : Prop := ∀ j, t = .literal j → j.Finite ∧ j.depth = 0

theorem plain_of_value {j : Json} (hfinite : j.Finite) (hdepth : j.depth = 0) :
    (Token.literal j).Plain := by
  rintro _ ⟨⟩
  exact ⟨hfinite, hdepth⟩

theorem plain_ofLiteral {l : Decimal.Literal} {j : Json} (h : ofLiteral l = some j) :
    (Token.literal j).Plain := by
  have hscaled : l.scaled.map .float = some j → (Token.literal j).Plain := by
    intro hj
    obtain ⟨x, hx, rfl⟩ := Option.map_eq_some_iff.mp hj
    refine plain_of_value ?_ rfl
    rintro _ ⟨⟩
    exact Decimal.Literal.isFinite_scaled hx
  have hint : ∀ n : Int, some (Json.int n) = some j → (Token.literal j).Plain := by
    rintro n ⟨⟩
    exact plain_of_value nofun rfl
  simp only [ofLiteral] at h
  split at h
  · split at h
    · split at h
      · exact hint _ h
      · exact hscaled h
    · split at h
      · exact hint _ h
      · exact hscaled h
  · exact hscaled h

theorem plain_scanLiteral {cs rest : List Char} {j : Json}
    (h : scanLiteral cs = some (j, rest)) : (Token.literal j).Plain := by
  have hword : ∀ {β : Type} {r : Option β} {g : β → Json × List Char},
      r.map g = some (j, rest) → (∀ b, (Token.literal (g b).1).Plain) →
        (Token.literal j).Plain := by
    intro β r g hj hg
    obtain ⟨b, _, hb⟩ := Option.map_eq_some_iff.mp hj
    have hplain := hg b
    rwa [hb] at hplain
  rw [scanLiteral.eq_def] at h
  split at h
  · exact hword h fun (_, _) => plain_of_value nofun rfl
  · exact hword h fun _ => plain_of_value nofun rfl
  · exact hword h fun _ => plain_of_value nofun rfl
  · exact hword h fun _ => plain_of_value nofun rfl
  · obtain ⟨⟨l, rest'⟩, _, hl⟩ := Option.bind_eq_some_iff.mp h
    obtain ⟨k, hk, hj⟩ := Option.bind_eq_some_iff.mp hl
    cases hj
    exact plain_ofLiteral hk

theorem plain_punctuation {c : Char} {t : Token} (h : punctuation? c = some t) : t.Plain := by
  simp only [punctuation?] at h
  split at h <;> cases h <;> exact nofun

theorem plain_tokensFuel (fuel : Nat) (cs : List Char) : ∀ t ∈ tokensFuel fuel cs, t.Plain := by
  induction fuel generalizing cs with
  | zero => exact nofun
  | succ fuel ih =>
    cases cs with
    | nil => exact nofun
    | cons c cs =>
      rw [tokensFuel]
      split
      · exact ih cs
      · split
        · rename_i t ht
          exact List.forall_mem_cons.mpr ⟨plain_punctuation ht, ih cs⟩
        · split
          · rename_i j rest hj
            exact List.forall_mem_cons.mpr ⟨plain_scanLiteral hj, ih rest⟩
          · exact List.forall_mem_cons.mpr ⟨nofun, nofun⟩

theorem plain_tokens (text : String) : ∀ t ∈ tokens text, t.Plain :=
  plain_tokensFuel _ _

/-! ### Open containers -/

structure Fits (around : Nat) (j : Json) : Prop where
  finite : Every Finite j
  depth : j.depth + around ≤ maxDepth

def Frame.parts : Frame → List Json
  | .array items => items
  | .object fields _ => fields.map Prod.snd

/-- Whether the parts of open containers can stand where they do. -/
def FitsAll : List Frame → Prop
  | [] => True
  | f :: fs => (∀ v ∈ f.parts, Fits (fs.length + 1) v) ∧ fs.length < maxDepth ∧ FitsAll fs

/-- What holds while a reader waits. A container whose first part is waited for is open but not on
the stack yet, as is an object whose next key is. -/
def Want.Valid (stack : List Frame) : Want → Prop
  | .firstItem => stack.length < maxDepth ∧ FitsAll stack
  | .firstKey => stack.length < maxDepth ∧ FitsAll stack
  | .key fields => FitsAll (.object fields "" :: stack)
  | _ => FitsAll stack

/-- What a text is read as: finite throughout, and not nested too deep if it ends. -/
structure Sound (j : Json) : Prop where
  finite : Every Finite j
  depth : j.isClosed = true → j.depth ≤ maxDepth

theorem Fits.of_children {around : Nat} {j : Json} (hown : j.Finite)
    (hparts : ∀ v ∈ j.children, Fits (around + 1) v) (haround : around < maxDepth) :
    Fits around j := by
  have hdepth : j.depth ≤ (maxDepth - (around + 1)) + 1 := by
    refine depth_le_succ.mpr fun v hv => ?_
    have hv := (hparts v hv).depth
    omega
  exact ⟨.intro hown fun v hv => (hparts v hv).finite, by omega⟩

theorem fits_literal {j : Json} {around : Nat} (h : (Token.literal j).Plain)
    (haround : around ≤ maxDepth) : Fits around j := by
  obtain ⟨hfinite, hdepth⟩ := h j rfl
  refine ⟨.intro hfinite fun v hv => ?_, by omega⟩
  have hlt := depth_lt_of_mem_children hv
  omega

theorem FitsAll.length_le {stack : List Frame} (h : FitsAll stack) : stack.length ≤ maxDepth := by
  cases stack with
  | nil => exact Nat.zero_le _
  | cons f fs => exact h.2.1

theorem Frame.parts_add (j : Json) (f : Frame) : (f.add j).parts = j :: f.parts := by
  cases f <;> rfl

theorem Frame.children_build (closed : Bool) (f : Frame) :
    (f.build closed).children = f.parts.reverse := by
  cases f with
  | array items => rfl
  | object fields key => exact List.map_reverse

theorem Frame.finite_build (closed : Bool) (f : Frame) : (f.build closed).Finite := by
  cases f with
  | array items => exact finite_array _ closed
  | object fields key => exact finite_object _ closed

theorem FitsAll.add {f : Frame} {fs : List Frame} (h : FitsAll (f :: fs)) {j : Json}
    (hj : Fits (fs.length + 1) j) : FitsAll (f.add j :: fs) := by
  obtain ⟨hparts, hrest⟩ := h
  refine ⟨?_, hrest⟩
  rw [Frame.parts_add]
  exact List.forall_mem_cons.mpr ⟨hj, hparts⟩

/-- A container can stand where it was opened. -/
theorem FitsAll.build {f : Frame} {fs : List Frame} (h : FitsAll (f :: fs)) (closed : Bool) :
    Fits fs.length (f.build closed) := by
  obtain ⟨hparts, hlt, _⟩ := h
  refine .of_children (f.finite_build closed) (fun v hv => ?_) hlt
  rw [Frame.children_build, List.mem_reverse] at hv
  exact hparts v hv

/-! ### Texts -/

/-- A text that breaks off ends no container that is open. -/
theorem sound_tear {j : Json} {stack : List Frame} (hj : Every Finite j)
    (hopen : j.isClosed = false) (h : FitsAll stack) : Sound (tear j stack) := by
  induction stack generalizing j with
  | nil => exact ⟨hj, fun hclosed => absurd (hopen.symm.trans hclosed) Bool.false_ne_true⟩
  | cons f fs ih =>
    obtain ⟨hparts, _, hrest⟩ := h
    have hbuilt : Every Finite ((f.add j).build false) := by
      refine .intro ((f.add j).finite_build false) ?_
      rw [Frame.children_build, Frame.parts_add]
      refine fun v hv => ?_
      rcases List.mem_cons.mp (List.mem_reverse.mp hv) with rfl | hv
      · exact hj
      · exact (hparts v hv).finite
    refine ih hbuilt ?_ hrest
    cases f <;> rfl

theorem sound_breakOff {want : Want} {stack : List Frame} (h : want.Valid stack) :
    Sound (breakOff want stack) := by
  cases want with
  | firstItem => exact sound_tear (.leaf (finite_array [] false) rfl) rfl h.2
  | firstKey => exact sound_tear (.leaf (finite_object [] false) rfl) rfl h.2
  | key fields => exact sound_tear (FitsAll.build h false).finite rfl h.2.2
  | more =>
    cases stack with
    | nil => exact sound_tear (.leaf nofun rfl) rfl h
    | cons f fs =>
      refine sound_tear (h.build false).finite ?_ h.2.2
      cases f <;> rfl
  | _ => exact sound_tear (.leaf nofun rfl) rfl h

section

variable {ts : List Token}
  (ih : ∀ want stack, Want.Valid stack want → Sound (build ts want stack).value)

include ih

/-- A value that ends is the text's, or goes into the innermost open container. -/
theorem sound_finish {j : Json} {stack : List Frame} (hj : Fits stack.length j)
    (h : FitsAll stack) :
    Sound (match stack with
      | [] => (⟨j, !ts.isEmpty⟩ : Draft)
      | f :: fs => build ts .more (f.add j :: fs)).value := by
  cases stack with
  | nil => exact ⟨hj.finite, fun _ => hj.depth⟩
  | cons f fs => exact ih .more _ (h.add hj)

/-- A container opens where there is depth left for it, and else the text breaks off. -/
theorem sound_open {want : Want} {empty : Json} {stack : List Frame}
    (hempty : Every Finite empty) (hopen : empty.isClosed = false) (h : FitsAll stack)
    (hwant : stack.length < maxDepth → Want.Valid stack want) :
    Sound (if stack.length < maxDepth then build ts want stack
      else ⟨tear empty stack, false⟩).value := by
  split
  · exact ih want stack (hwant ‹_›)
  · exact sound_tear hempty hopen h

end

/-- A reader keeps what holds while it waits. -/
theorem sound_build {ts : List Token} {want : Want} {stack : List Frame} (h : want.Valid stack)
    (hts : ∀ t ∈ ts, t.Plain) : Sound (build ts want stack).value := by
  induction ts generalizing want stack with
  | nil => exact sound_breakOff h
  | cons t ts ih =>
    obtain ⟨ht, hts⟩ := List.forall_mem_cons.mp hts
    have ih : ∀ want stack, Want.Valid stack want → Sound (build ts want stack).value :=
      fun _ _ h => ih h hts
    have harray : Every Finite (.array [] false) := .leaf (finite_array [] false) rfl
    have hobject : Every Finite (.object [] false) := .leaf (finite_object [] false) rfl
    cases want with
    | value =>
      have hstack : FitsAll stack := h
      cases t with
      | literal j => exact sound_finish ih (fits_literal ht hstack.length_le) hstack
      | openArray => exact sound_open ih harray rfl hstack fun hlt => ⟨hlt, hstack⟩
      | openObject => exact sound_open ih hobject rfl hstack fun hlt => ⟨hlt, hstack⟩
      | _ => exact sound_breakOff h
    | firstItem =>
      have hlt : stack.length < maxDepth := h.1
      have hstack : FitsAll stack := h.2
      have hpushed : FitsAll (.array [] :: stack) := ⟨nofun, hlt, hstack⟩
      cases t with
      | closeArray => exact sound_finish ih (hpushed.build true) hstack
      | literal j => exact ih .more _ (hpushed.add (fits_literal ht hlt))
      | openArray => exact sound_open ih harray rfl hpushed fun hlt => ⟨hlt, hpushed⟩
      | openObject => exact sound_open ih hobject rfl hpushed fun hlt => ⟨hlt, hpushed⟩
      | _ => exact sound_breakOff h
    | firstKey =>
      have hlt : stack.length < maxDepth := h.1
      have hstack : FitsAll stack := h.2
      have hpushed : ∀ key, FitsAll (.object [] key :: stack) := fun _ => ⟨nofun, hlt, hstack⟩
      cases t with
      | closeObject => exact sound_finish ih ((hpushed "").build true) hstack
      | literal j =>
        cases j with
        | string key => exact ih .colon _ (hpushed key)
        | _ => exact sound_breakOff h
      | _ => exact sound_breakOff h
    | key fields =>
      cases t with
      | literal j =>
        cases j with
        | string key => exact ih .colon (.object fields key :: stack) h
        | _ => exact sound_breakOff h
      | _ => exact sound_breakOff h
    | colon =>
      cases t with
      | colon => exact ih .value stack h
      | _ => exact sound_breakOff h
    | more =>
      cases stack with
      | nil => cases t <;> exact sound_breakOff h
      | cons f fs =>
        have hstack : FitsAll (f :: fs) := h
        cases f with
        | array items =>
          cases t with
          | comma => exact ih .value _ hstack
          | closeArray => exact sound_finish ih (hstack.build true) hstack.2.2
          | _ => exact sound_breakOff h
        | object fields key =>
          cases t with
          | comma => exact ih (.key fields) fs hstack
          | closeObject => exact sound_finish ih (hstack.build true) hstack.2.2
          | _ => exact sound_breakOff h

theorem sound_read (text : String) : Sound (read text).value :=
  sound_build trivial (plain_tokens text)

end Milp.Json
