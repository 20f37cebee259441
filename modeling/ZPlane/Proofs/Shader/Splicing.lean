import ZPlane.Proofs.Text.Replacement
import ZPlane.Shader.Fragment

/-!
# Filling the Template

The holes of the template are filled one after the other, each wherever it occurs. The first
occurs once. So does the second, in the template, but it is looked for when the declarations
are there already. Those are followed by a line feed, which no hole has, so they are searched
on their own. As long as the hole does not start in them, the shader is the template with the
declarations in one hole and the expression in the other. What was put in for the expression is
not looked at again.

## Theorems

* `Shader.fill_uniformsHole`: The template with its declarations.
* `Shader.fill_expressionHole`: The template with both holes filled.
* `Shader.fragment_of_emit`: The fragment shader of an expression.
* `Shader.fragment_eq`: The fragment shader where the declarations hold no hole.
-/

namespace ZPlane

namespace Shader

open Text

theorem brace_not_mem_preamble : '\x7b' ∉ preamble.toList := by
  unfold preamble
  rw [String.toList_ofList]
  decide +kernel

theorem brace_not_mem_closing : '\x7b' ∉ closing.toList := by
  unfold closing
  rw [String.toList_append, String.toList_ofList, String.toList_ofList]
  decide +kernel

/-- The hole for the declarations occurs nowhere behind itself. -/
theorem startsNowhere_uniformsHole :
    StartsNowhere uniformsHole.toList
      (middle.toList ++ (expressionHole.toList ++ closing.toList)) [] := by
  unfold uniformsHole middle expressionHole closing
  simp only [String.toList_append]
  repeat rw [String.toList_ofList]
  decide +kernel

/-- The hole for the expression does not start before itself. -/
theorem startsNowhere_expressionHole :
    StartsNowhere expressionHole.toList middle.toList
      (expressionHole.toList ++ closing.toList) := by
  unfold middle expressionHole closing
  simp only [String.toList_append]
  repeat rw [String.toList_ofList]
  decide +kernel

/-- Both holes start with a brace, so they start nowhere in a text without one. -/
theorem startsNowhere_of_brace_not_mem {cs : List Char} (h : '\x7b' ∉ cs) (rest : List Char) :
    StartsNowhere uniformsHole.toList cs rest ∧ StartsNowhere expressionHole.toList cs rest :=
  ⟨startsNowhere_of_not_mem rfl h rest, startsNowhere_of_not_mem rfl h rest⟩

/-- The template with its declarations. -/
theorem fill_uniformsHole (declarations : String) :
    fill uniformsHole declarations template =
      preamble ++ declarations ++ middle ++ expressionHole ++ closing := by
  have hbefore := (startsNowhere_of_brace_not_mem brace_not_mem_preamble
    (uniformsHole.toList ++ (middle.toList ++ (expressionHole.toList ++ closing.toList)))).1
  rw [← String.toList_inj, fill, String.toList_ofList, template]
  simp only [String.toList_append, List.append_assoc]
  rw [replaceAll_append hbefore, replaceAll_pattern (by simp [uniformsHole]),
    replaceAll_eq_self startsNowhere_uniformsHole]

theorem head?_middle : middle.toList.head? = some '\n' := by
  unfold middle
  rw [String.toList_append, String.toList_append, List.head?_append, List.head?_append]
  rfl

/-- The template with both holes filled. The second is also filled where it stands in what was
    put into the first. -/
theorem fill_expressionHole (declarations body : String) :
    fill expressionHole body (preamble ++ declarations ++ middle ++ expressionHole ++ closing) =
      preamble ++ fill expressionHole body declarations ++ middle ++ body ++ closing := by
  have hbefore := (startsNowhere_of_brace_not_mem brace_not_mem_preamble
    (declarations.toList ++ (middle.toList ++ (expressionHole.toList ++ closing.toList)))).2
  have hafter := (startsNowhere_of_brace_not_mem brace_not_mem_closing []).2
  have hfeed : (middle.toList ++ (expressionHole.toList ++ closing.toList)).head? = some '\n' := by
    rw [List.head?_append, head?_middle]
    rfl
  rw [← String.toList_inj, fill, String.toList_ofList]
  simp only [String.toList_append, List.append_assoc, fill, String.toList_ofList]
  rw [replaceAll_append hbefore, replaceAll_append_of_head? hfeed (by decide),
    replaceAll_append startsNowhere_expressionHole, replaceAll_pattern (by simp [expressionHole]),
    replaceAll_eq_self hafter]

theorem fill_eq_self {hole text : String} (h : StartsNowhere hole.toList text.toList [])
    (content : String) : fill hole content text = text := by
  rw [fill, replaceAll_eq_self h, String.ofList_toList]

section Fragment

variable {e : Expr} {body : String}

/-- The fragment shader of an expression is the template with the declarations and the
    expression put in, and with the expression wherever its hole stands in the declarations. -/
theorem fragment_of_emit (hbody : emit spelling e = .ok body) :
    fragment e = .ok
      (preamble ++ fill expressionHole body (uniforms e) ++ middle ++ body ++ closing) := by
  unfold fragment
  rw [hbody]
  change Except.ok _ = _
  rw [fill_uniformsHole, fill_expressionHole]

/-- The fragment shader where the hole for the expression does not start in the declarations. -/
theorem fragment_eq (hbody : emit spelling e = .ok body)
    (h : StartsNowhere expressionHole.toList (uniforms e).toList
      (middle.toList ++ (expressionHole.toList ++ closing.toList))) :
    fragment e = .ok (preamble ++ uniforms e ++ middle ++ body ++ closing) := by
  rw [fragment_of_emit hbody, fill_eq_self h.of_append]

end Fragment

end Shader

end ZPlane
