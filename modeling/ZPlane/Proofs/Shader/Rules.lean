import ZPlane.Proofs.Shader.Literal
import ZPlane.Proofs.Text.Letters

/-!
# Reading Rules of the Shading Language

How the readers of the shading language take texts that are put together from smaller
ones. A text may be followed by anything that does not go on with it, and each level of
the language has its own characters that may follow. A literal or a name ends before a
point or an operator. A product ends before a plus or a minus, and a sum only before a
comma or a closing parenthesis.

`ReadsAs` says that a text is read as a quantity at some level. The rules have the shape
of the grammar: each takes texts of the levels below to a text of its own level.

## Main definitions

* `Shading.ReadsAs`: A text that a reader takes as a quantity, whatever follows.
* `Shading.IsPrimary`, `Shading.IsPart`, `Shading.IsProduct`, `Shading.IsSum`: The
  texts of each level.

## Theorems

* `Shading.IsPrimary.part`, `Shading.IsPart.product`, `Shading.IsProduct.sum`: A text of
  one level is one of the next.
* `Shading.isPrimary_name`, `Shading.isPrimary_vec2`, `Shading.IsSum.group`,
  `Shading.IsPrimary.x`, `Shading.IsPrimary.y`, `Shading.IsPart.times`,
  `Shading.IsProduct.plus`: The rules.
* `Shading.IsSum.evaluate_eq`: A sum that is the whole text is what the text denotes.
-/

namespace ZPlane

namespace Shading

theorem skip_cons {c : Char} (cs : List Char) (h : Text.isWhiteSpace c = false) :
    skip (c :: cs) = c :: cs := by
  simp [skip, h]

theorem eat_cons {c : Char} (cs : List Char) (h : Text.isWhiteSpace c = false) :
    eat c (c :: cs) = some cs := by
  rw [eat, skip_cons _ h]
  simp

/-- What follows has no white space in front, if no white space may follow. -/
theorem Follows.skip_eq {follow rest : List Char} (h : Follows follow rest)
    (hfollow : ∀ c ∈ follow, Text.isWhiteSpace c = false) : skip rest = rest := by
  cases rest with
  | nil => rfl
  | cons c cs => exact skip_cons cs (hfollow c (h c rfl))

section Operands

variable {op : Char → Option (Float → Float → Float)} {operand : Reader} {follow : List Char}

/-- Characters that are no white space and no operator of the given kind. -/
def Stopping (op : Char → Option (Float → Float → Float)) (follow : List Char) : Prop :=
  ∀ c ∈ follow, Text.isWhiteSpace c = false ∧ (op c).isNone = true

theorem joinMore_of_follows (hfollow : Stopping op follow) {rest : List Char}
    (hrest : Follows follow rest) (n : Nat) (v : Quantity) :
    joinMore op operand n v rest = some (v, rest) := by
  cases n with
  | zero => rfl
  | succ n =>
    unfold joinMore
    rw [hrest.skip_eq fun c hc => (hfollow c hc).1]
    cases rest with
    | nil => rfl
    | cons c cs => simp only [Option.isNone_iff_eq_none.mp (hfollow c (hrest c rfl)).2]

/-- An operand with no operator behind it. -/
theorem join_one (hfollow : Stopping op follow) {cs rest : List Char} {v : Quantity}
    (hread : operand cs = some (v, rest)) (hrest : Follows follow rest) :
    join op operand cs = some (v, rest) := by
  unfold join
  rw [hread]
  exact joinMore_of_follows hfollow hrest _ v

/-- Two operands with an operator between them, and none behind. -/
theorem join_two (hfollow : Stopping op follow) {f : Float → Float → Float} {c : Char}
    {cs mid rest : List Char} {u v w : Quantity} (hleft : operand cs = some (v, c :: mid))
    (hblank : Text.isWhiteSpace c = false) (hop : op c = some f)
    (hright : operand mid = some (w, rest)) (hcombine : v.combine f w = some u)
    (hrest : Follows follow rest) : join op operand cs = some (u, rest) := by
  unfold join
  rw [hleft]
  simp only [Option.bind_eq_bind, Option.bind_some, List.length_cons, joinMore, skip_cons _ hblank,
    hop, hright, hcombine]
  exact joinMore_of_follows hfollow hrest _ u

end Operands

section Primaries

variable {names : String → Option Complex} {inner : Reader}

theorem primary_group {cs rest : List Char} {v : Quantity}
    (hread : inner (cs ++ ')' :: rest) = some (v, ')' :: rest)) :
    primary names inner ('(' :: (cs ++ ')' :: rest)) = some (v, rest) := by
  unfold primary
  rw [skip_cons _ rfl]
  simp only [if_true, hread]
  rfl

theorem primary_literal {cs rest : List Char} {x : Float} (h : IsLiteral cs x)
    (hrest : Follows afterSum rest) : primary names inner (cs ++ rest) = some (.float x, rest) := by
  have htaken := h.taken rest hrest
  have hvalue := h.value
  rcases h.starts with ⟨c, tail, rfl, hc⟩
  have hblank : Text.isWhiteSpace c = false :=
    Text.isWhiteSpace_of_isAlphanum (by rw [Char.isAlphanum, hc, Bool.or_true])
  have hparen : c ≠ '(' := ne_of_isDigit hc rfl
  unfold primary
  rw [List.cons_append] at htaken ⊢
  rw [skip_cons _ hblank]
  simp only [if_neg hparen, if_pos hc, htaken, hvalue]
  rfl

/-- A letter starts a word. -/
theorem primary_word {c : Char} (cs : List Char) (hc : c.isAlpha = true) :
    primary names inner (c :: cs) = word names inner (c :: cs) := by
  have hblank : Text.isWhiteSpace c = false :=
    Text.isWhiteSpace_of_isAlphanum (by rw [Char.isAlphanum, hc, Bool.true_or])
  have hparen : c ≠ '(' := by
    rintro rfl
    cases hc
  have hdigit : ¬c.isDigit = true := by
    intro h
    rw [Text.isAlpha_of_isDigit h] at hc
    cases hc
  unfold primary
  rw [skip_cons _ hblank]
  simp only [if_neg hparen, if_neg hdigit, if_pos hc]

/-- A name stands for the vector of its number. -/
theorem primary_name {x : String} {z : Complex} {rest : List Char} (hx : x.toList ≠ [])
    (halpha : ∀ c ∈ x.toList, c.isAlpha = true) (hz : names x = some z)
    (hrest : ∀ c ∈ rest.head?, c.isAlphanum = false) :
    primary names inner (x.toList ++ rest) = some (.vec2 z.re z.im, rest) := by
  have halnum : ∀ c ∈ x.toList, c.isAlphanum = true := by
    intro c hc
    rw [Char.isAlphanum, halpha c hc, Bool.true_or]
  have htake : (x.toList ++ rest).takeWhile Char.isAlphanum = x.toList := by
    rw [List.takeWhile_append_of_pos halnum]
    cases rest with
    | nil => simp
    | cons c cs => simp [hrest c rfl]
  have hdrop : (x.toList ++ rest).dropWhile Char.isAlphanum = rest := by
    rw [List.dropWhile_append_of_pos halnum]
    cases rest with
    | nil => simp
    | cons c cs => simp [hrest c rfl]
  -- The name of a vector has a digit in it, and no other name has.
  have hvec : x ≠ "vec2" := by
    rintro rfl
    exact absurd (halpha '2' (by decide)) (by decide)
  have hword : primary names inner (x.toList ++ rest) = word names inner (x.toList ++ rest) := by
    rcases hlist : x.toList with _ | ⟨c, cs⟩
    · exact absurd hlist hx
    · exact primary_word _ (halpha c (by rw [hlist]; exact List.mem_cons_self))
  rw [hword]
  unfold word
  simp only [htake, hdrop, String.ofList_toList, if_neg hvec, hz, Option.map_some]

/-- A vector by its parts. -/
theorem primary_vec2 {as bs rest : List Char} {x y : Float}
    (hx : inner (as ++ ',' :: ' ' :: (bs ++ ')' :: rest)) =
      some (.float x, ',' :: ' ' :: (bs ++ ')' :: rest)))
    (hy : inner (' ' :: (bs ++ ')' :: rest)) = some (.float y, ')' :: rest)) :
    primary names inner ("vec2(".toList ++ (as ++ ',' :: ' ' :: (bs ++ ')' :: rest))) =
      some (.vec2 x y, rest) := by
  -- The word up to the parenthesis is that of a vector, by computation.
  refine (primary_word _ rfl).trans ?_
  change vector inner ('(' :: (as ++ ',' :: ' ' :: (bs ++ ')' :: rest))) = _
  unfold vector
  rw [eat_cons _ rfl]
  simp only [Option.bind_eq_bind, Option.bind_some, hx]
  rw [eat_cons _ rfl]
  simp only [Option.bind_some, hy]
  rw [eat_cons _ rfl]
  rfl

/-- A blank before an expression is nothing. -/
theorem expression_blank (depth : Nat) (cs : List Char) :
    expression names depth (' ' :: cs) = expression names depth cs := by
  cases depth with
  | zero => rfl
  | succ depth => rfl

end Primaries

/-- A text that the readers take as a quantity, if nothing follows or one of the given
    characters. The readers are numbered by the depth of parentheses they can take, and
    no text is nested deeper than it is long. -/
def ReadsAs (reader : Nat → Reader) (follow : List Char) (cs : List Char) (v : Quantity) : Prop :=
  ∀ depth, cs.length ≤ depth → ∀ rest, Follows follow rest →
    reader depth (cs ++ rest) = some (v, rest)

/-- What stands behind a product. -/
def afterProduct : List Char :=
  '+' :: '-' :: afterSum

/-- What stands behind a part. -/
def afterPart : List Char :=
  '*' :: afterProduct

/-- What stands behind a primary. -/
def afterPrimary : List Char :=
  '.' :: afterPart

section Levels

variable (names : String → Option Complex)

/-- The text of a primary with the given value. -/
def IsPrimary (cs : List Char) (v : Quantity) : Prop :=
  ReadsAs (fun depth => primary names (expression names depth)) afterPrimary cs v

/-- The text of a primary or a part of one. -/
def IsPart (cs : List Char) (v : Quantity) : Prop :=
  ReadsAs (fun depth => part names (expression names depth)) afterPart cs v

/-- The text of a product. -/
def IsProduct (cs : List Char) (v : Quantity) : Prop :=
  ReadsAs (fun depth => product names (expression names depth)) afterProduct cs v

/-- The text of a sum. -/
def IsSum (cs : List Char) (v : Quantity) : Prop :=
  ReadsAs (fun depth => expression names (depth + 1)) afterSum cs v

variable {names} {as bs : List Char} {u v w : Quantity} {a b : Float}

theorem Follows.tail {c : Char} {follow rest : List Char} (h : Follows follow rest) :
    Follows (c :: follow) rest :=
  fun d hd => List.mem_cons_of_mem c (h d hd)

theorem stopping_product : Stopping productOperator afterProduct := by
  simp only [Stopping, afterProduct, afterSum, List.forall_mem_cons]
  exact ⟨⟨rfl, rfl⟩, ⟨rfl, rfl⟩, ⟨rfl, rfl⟩, ⟨rfl, rfl⟩, by simp⟩

theorem stopping_sum : Stopping sumOperator afterSum := by
  simp only [Stopping, afterSum, List.forall_mem_cons]
  exact ⟨⟨rfl, rfl⟩, ⟨rfl, rfl⟩, by simp⟩

/-- What follows a part is no white space and no point. -/
theorem isWhiteSpace_and_ne_of_mem_afterPart :
    ∀ c ∈ afterPart, Text.isWhiteSpace c = false ∧ c ≠ '.' := by
  simp only [afterPart, afterProduct, afterSum, List.forall_mem_cons]
  exact ⟨⟨rfl, by decide⟩, ⟨rfl, by decide⟩, ⟨rfl, by decide⟩, ⟨rfl, by decide⟩,
    ⟨rfl, by decide⟩, by simp⟩

theorem isAlphanum_of_mem_afterPrimary : ∀ c ∈ afterPrimary, c.isAlphanum = false := by
  simp only [afterPrimary, afterPart, afterProduct, afterSum, List.forall_mem_cons]
  exact ⟨rfl, rfl, rfl, rfl, rfl, rfl, by simp⟩

/-- A primary is a part of its own where no point follows. -/
theorem part_of_primary {inner : Reader} {cs rest : List Char}
    (hread : primary names inner cs = some (v, rest)) (hrest : Follows afterPart rest) :
    part names inner cs = some (v, rest) := by
  have hpoint : eat '.' rest = none := by
    unfold eat
    rw [hrest.skip_eq fun c hc => (isWhiteSpace_and_ne_of_mem_afterPart c hc).1]
    cases rest with
    | nil => rfl
    | cons c cs => simp [(isWhiteSpace_and_ne_of_mem_afterPart c (hrest c rfl)).2]
  simp only [part, hread, Option.bind_eq_bind, Option.bind_some, hpoint]

theorem IsPrimary.part (h : IsPrimary names as v) : IsPart names as v :=
  fun depth hdepth rest hrest => part_of_primary (h depth hdepth rest hrest.tail) hrest

theorem IsPart.product (h : IsPart names as v) : IsProduct names as v :=
  fun depth hdepth rest hrest => join_one stopping_product (h depth hdepth rest hrest.tail) hrest

theorem IsProduct.sum (h : IsProduct names as v) : IsSum names as v :=
  fun depth hdepth rest hrest =>
    join_one stopping_sum (h depth hdepth rest hrest.tail.tail) hrest

/-- A part of a vector, by its letter. -/
theorem IsPrimary.point {c : Char} {x : Float} (h : IsPrimary names as (.vec2 a b))
    (hc : c = 'x' ∧ x = a ∨ c = 'y' ∧ x = b) : IsPart names (as ++ ['.', c]) (.float x) := by
  intro depth hdepth rest _
  rw [List.length_append] at hdepth
  have hread := h depth (by omega) ('.' :: c :: rest) (follows_cons (by decide) _)
  rw [List.append_assoc]
  simp only [Shading.part, List.cons_append, List.nil_append, hread]
  rcases hc with ⟨rfl, rfl⟩ | ⟨rfl, rfl⟩ <;> rfl

theorem IsPrimary.x (h : IsPrimary names as (.vec2 a b)) :
    IsPart names (as ++ ['.', 'x']) (.float a) :=
  h.point (.inl ⟨rfl, rfl⟩)

theorem IsPrimary.y (h : IsPrimary names as (.vec2 a b)) :
    IsPart names (as ++ ['.', 'y']) (.float b) :=
  h.point (.inr ⟨rfl, rfl⟩)

/-- Two factors. -/
theorem IsPart.times (ha : IsPart names as v) (hb : IsPart names bs w)
    (hu : v.combine (· * ·) w = some u) : IsProduct names (as ++ '*' :: bs) u := by
  intro depth hdepth rest hrest
  simp only [List.length_append, List.length_cons] at hdepth
  rw [List.append_assoc]
  exact join_two stopping_product
    (ha depth (by omega) ('*' :: (bs ++ rest)) (follows_cons (by decide) _)) rfl rfl
    (hb depth (by omega) rest hrest.tail) hu hrest

/-- Two terms. -/
theorem IsProduct.plus {c : Char} {f : Float → Float → Float} (ha : IsProduct names as v)
    (hb : IsProduct names bs w) (hc : c = '+' ∨ c = '-') (hf : sumOperator c = some f)
    (hu : v.combine f w = some u) : IsSum names (as ++ c :: bs) u := by
  intro depth hdepth rest hrest
  simp only [List.length_append, List.length_cons] at hdepth
  have hfollow : c ∈ afterProduct ∧ Text.isWhiteSpace c = false := by
    rcases hc with rfl | rfl <;> decide
  rw [List.append_assoc]
  exact join_two stopping_sum
    (ha depth (by omega) (c :: (bs ++ rest)) (follows_cons hfollow.1 _)) hfollow.2 hf
    (hb depth (by omega) rest hrest.tail.tail) hu hrest

/-- A literal is a sum on its own. -/
theorem IsLiteral.sum (h : IsLiteral as a) : IsSum names as (.float a) := by
  intro depth _ rest hrest
  -- A literal is only written where a whole sum may stand, so what follows is what ends a sum.
  refine join_one stopping_sum (join_one stopping_product ?_ hrest.tail.tail) hrest
  exact part_of_primary (primary_literal h hrest) hrest.tail.tail.tail

/-- A sum in parentheses. -/
theorem IsSum.group (h : IsSum names as v) : IsPrimary names ('(' :: (as ++ [')'])) v := by
  intro depth hdepth rest _
  simp only [List.length_append, List.length_cons, List.length_nil] at hdepth
  -- The parentheses are two characters, so one round can be spent on them.
  obtain ⟨depth, rfl⟩ : ∃ n, depth = n + 1 := ⟨depth - 1, by omega⟩
  have hread := h depth (by omega) (')' :: rest) (follows_cons (by decide) _)
  simp only [List.cons_append, List.append_assoc, List.nil_append]
  exact primary_group hread

/-- A vector by its parts. -/
theorem isPrimary_vec2 (ha : IsSum names as (.float a)) (hb : IsSum names bs (.float b)) :
    IsPrimary names ("vec2(".toList ++ (as ++ ',' :: ' ' :: (bs ++ [')']))) (.vec2 a b) := by
  intro depth hdepth rest _
  simp only [List.length_append, List.length_cons, List.length_nil, String.length_toList] at hdepth
  obtain ⟨depth, rfl⟩ : ∃ n, depth = n + 1 := ⟨depth - 1, by omega⟩
  simp only [List.append_assoc, List.cons_append, List.nil_append]
  refine primary_vec2 (ha depth (by omega) _ (follows_cons (by decide) _)) ?_
  -- A blank is written behind the comma.
  rw [expression_blank]
  exact hb depth (by omega) _ (follows_cons (by decide) _)

/-- A name stands for the vector of its number. -/
theorem isPrimary_name {x : String} {z : Complex} (hx : x.toList ≠ [])
    (halpha : ∀ c ∈ x.toList, c.isAlpha = true) (hz : names x = some z) :
    IsPrimary names x.toList (.vec2 z.re z.im) := by
  intro depth _ rest hrest
  exact primary_name hx halpha hz fun c hc => isAlphanum_of_mem_afterPrimary c (hrest c hc)

/-- A sum that is the whole text is what the text denotes. -/
theorem IsSum.evaluate_eq {text : String} (h : IsSum names text.toList v) :
    evaluate names text = some v := by
  have hread : expression names (text.toList.length + 1) (text.toList ++ []) = some (v, []) :=
    h _ (Nat.le_refl _) [] (by rintro c ⟨⟩)
  rw [List.append_nil] at hread
  unfold evaluate
  rw [hread]
  rfl

end Levels

end Shading

end ZPlane
