import ZPlane.Proofs.Token.Tiling

/-!
# Layout

The tokens of a text can be written down again with other blanks around them. This gives the
same tokens, at the columns where they stand now, as long as no two of them run together. Only
two names or two numbers can do that. All other tokens can follow each other without a blank: a
name ends where no letter follows and a number where neither a digit nor a point does, and no
token starts with a point.

What the blanks were before does not come into it. Whether a token is one on its own is a matter
of its characters, and whether it stays one is a matter of the first character behind it.

## Main definitions

* `Token.Kind.Merges`: Tokens that run together where nothing stands between them.
* `Token.Gaps`: Blanks that keep tokens apart.
* `Token.layout`: The text of tokens with gaps in front of them.
* `Token.placed`: The tokens at their columns in that text.

## Theorems

* `Token.Fits.of_nil`: A token that fits an empty text fits every text that does not go on with
  it.
* `Token.Fits.of_next`: Tokens that do not run together.
* `Token.scan_layout`: The tokens of a text in another layout.
-/

namespace ZPlane

namespace Token

/-- Tokens of the two kinds run together where nothing stands between them. -/
def Kind.Merges : Kind → Kind → Prop
  | .identifier _, .identifier _ => True
  | .number _, .number _ => True
  | _, _ => False

/-- A gap for each token, in front of it. The gaps are made of blanks, and there is a blank
    between tokens that run together otherwise. -/
structure Gaps (gaps : List String) (tokens : List Token) : Prop where
  length : gaps.length = tokens.length
  blank : ∀ w ∈ gaps, ∀ c ∈ w.toList, c ∈ [' ', '\t', '\r', '\n']
  apart : ∀ i t u w, tokens[i]? = some t → tokens[i + 1]? = some u → gaps[i + 1]? = some w →
    t.kind.Merges u.kind → w ≠ ""

/-- The lexemes of the tokens one after another, each with its gap in front of it. The gap of
    the end of the text is what follows the last of them. -/
def layout : List String → List Token → String
  | w :: ws, t :: ts => w ++ t.lexeme ++ layout ws ts
  | _, _ => ""

/-- The tokens at their columns in a layout that starts at `column`. -/
def placed (column : Nat) : List String → List Token → List Token
  | w :: ws, t :: ts =>
    { t with column := column + w.length } ::
      placed (column + w.length + t.lexeme.length) ws ts
  | _, _ => []

@[simp]
theorem layout_nil (ws : List String) : layout ws [] = "" := by
  cases ws <;> rfl

@[simp]
theorem placed_nil (column : Nat) (ws : List String) : placed column ws [] = [] := by
  cases ws <;> rfl

theorem Gaps.tail {w : String} {ws : List String} {t : Token} {ts : List Token}
    (h : Gaps (w :: ws) (t :: ts)) : Gaps ws ts := by
  refine ⟨Nat.succ.inj h.length, (List.forall_mem_cons.mp h.blank).2, ?_⟩
  intro i t' u w' ht hu hw
  exact h.apart (i + 1) t' u w' (by simpa using ht) (by simpa using hu) (by simpa using hw)

theorem Gaps.isBlank_head {w : String} {ws : List String} {tokens : List Token}
    (h : Gaps (w :: ws) tokens) : ∀ c ∈ w.toList, isBlank c = true :=
  fun c hc => isBlank_iff.mpr (h.blank w List.mem_cons_self c hc)

variable {column : Nat} {rest : List Char} {t u : Token} {ts us : List Token}

theorem breaks_of_isBlank {c : Char} (h : isBlank c = true) (cs : List Char) :
    Breaks (c :: cs) := by
  rintro d ⟨⟩
  simp only [isBlank, Bool.or_eq_true, beq_iff_eq] at h
  rcases h with ((rfl | rfl) | rfl) | rfl <;> decide

namespace Fits

theorem move (h : Fits t rest) (n : Nat) : Fits { t with column := n } rest := by
  cases h with
  | name hne hletters hstops => exact .name hne hletters hstops
  | number hdigital hfinite hlongest => exact .number hdigital hfinite hlongest
  | sign hk => exact .sign hk

/-- A token fits what does not go on with it, if it fits an empty text. -/
theorem of_nil (h : Fits t [])
    (hname : ∀ x, t.kind = .identifier x → ∀ c ∈ rest.head?, c.isAlpha = false)
    (hnumber : ∀ v, t.kind = .number v → ∀ c ∈ rest.head?, c.isDigit = false ∧ c ≠ '.') :
    Fits t rest := by
  cases h with
  | name hne hletters _ => exact .name hne hletters (hname _ rfl)
  | @number n _ _ hdigital hfinite _ =>
    have hstops : n.Stops rest := by
      intro c hc
      rcases hnumber _ rfl c hc with ⟨hdigit, hpoint⟩
      exact ⟨hdigit, fun _ => hpoint⟩
    exact .number hdigital hfinite ((Numeral.stops_iff_longest hdigital).mp hstops)
  | sign hk => exact .sign hk

theorem of_breaks (h : Fits t []) (hbreaks : Breaks rest) : Fits t rest :=
  h.of_nil (fun _ _ c hc => (hbreaks c hc).1) fun _ _ c hc => (hbreaks c hc).2

/-- What a token starts with: a name with a letter, a number with a digit, and every other one
    with a character that goes on with nothing. -/
theorem exists_head (h : Fits u rest) : ∃ c cs, u.lexeme.toList = c :: cs ∧
    ((∃ x, u.kind = .identifier x) ∧ c.isAlpha = true ∨
      (∃ v, u.kind = .number v) ∧ c.isDigit = true ∨
      c.isAlpha = false ∧ c.isDigit = false ∧ c ≠ '.') := by
  cases h with
  | @name cs _ _ hne hletters _ =>
    rcases cs with _ | ⟨c, cs⟩
    · exact absurd rfl hne
    · refine ⟨c, cs, String.toList_ofList, .inl ⟨⟨_, rfl⟩, hletters c List.mem_cons_self⟩⟩
  | number hdigital _ _ =>
    rcases hdigital.exists_cons with ⟨c, cs, hchars, hdigit⟩
    exact ⟨c, cs, String.toList_ofList.trans hchars, .inr (.inl ⟨⟨_, rfl⟩, hdigit⟩)⟩
  | sign hk =>
    rcases plain_of_symbol? (Kind.symbol?_eq_some_iff.mpr hk) with ⟨-, hplain⟩
    exact ⟨_, [], toList_toString _, .inr (.inr hplain)⟩

/-- Tokens that do not run together can stand next to each other. -/
theorem of_next (h : Fits t []) (hu : Fits u []) (hkinds : ¬ t.kind.Merges u.kind)
    (more : List Char) : Fits t (u.lexeme.toList ++ more) := by
  rcases hu.exists_head with ⟨c, cs, hcs, hc⟩
  rw [hcs, List.cons_append]
  refine h.of_nil ?_ ?_
  · rintro x hx d ⟨⟩
    rcases hc with ⟨⟨y, hy⟩, -⟩ | ⟨-, hdigit⟩ | ⟨halpha, -⟩
    · rw [hx, hy] at hkinds
      exact absurd trivial hkinds
    · exact Text.isAlpha_of_isDigit hdigit
    · exact halpha
  · rintro v hv d ⟨⟩
    rcases hc with ⟨-, halpha⟩ | ⟨⟨y, hy⟩, -⟩ | ⟨-, hplain⟩
    · refine ⟨?_, ?_⟩
      · by_contra hdigit
        rw [Text.isAlpha_of_isDigit (by simpa using hdigit)] at halpha
        cases halpha
      · rintro rfl
        exact absurd halpha (by decide)
    · rw [hv, hy] at hkinds
      exact absurd trivial hkinds
    · exact hplain

end Fits

/-- Blanks in front of a text move its tokens. -/
theorem Scans.blanks {cs : List Char} (hcs : ∀ c ∈ cs, isBlank c = true)
    (h : Scans (column + cs.length) rest ts) : Scans column (cs ++ rest) ts := by
  induction cs generalizing column with
  | nil => exact h
  | cons c cs ih =>
    rcases List.forall_mem_cons.mp hcs with ⟨hc, hcs⟩
    refine .blank hc (ih hcs ?_)
    rwa [Nat.add_assoc, Nat.add_comm 1, ← List.length_cons]

/-- A token fits the layout behind it: it stands next to a blank, or next to a token that it
    does not run together with, or at the end. -/
theorem Gaps.fits {w : String} {ws : List String} (h : Gaps (w :: ws) (t :: u :: ts))
    (ht : Fits t []) (hu : u.lexeme = "" ∧ ts = [] ∨ Fits u []) :
    Fits t (layout ws (u :: ts)).toList := by
  rcases ws with _ | ⟨v, ws⟩
  · exact absurd h.length (by simp)
  rw [layout, String.toList_append, String.toList_append, List.append_assoc]
  rcases hv : v.toList with _ | ⟨c, cs⟩
  · rcases hu with ⟨hempty, rfl⟩ | hu
    · simpa [hempty] using ht
    · refine ht.of_next hu (fun hkinds => ?_) _
      exact h.apart 0 t u v rfl rfl rfl hkinds (String.toList_eq_nil_iff.mp hv)
  · have hc : c ∈ v.toList := by simp [hv]
    exact ht.of_breaks (breaks_of_isBlank (isBlank_iff.mpr (h.blank v (by simp) c hc)) _)

/-- Tokens in a layout are found where it puts them. -/
theorem scans_layout {last : Token} (hkind : last.kind = .endOfText) (hlast : last.lexeme = "")
    {ws : List String} (hus : ∀ u ∈ us, Fits u []) (h : Gaps ws (us ++ [last])) (column : Nat) :
    Scans column (layout ws (us ++ [last])).toList (placed column ws (us ++ [last])) := by
  induction us generalizing ws column with
  | nil =>
    rcases ws with _ | ⟨w, ws⟩
    · exact absurd h.length (by simp)
    have hstop :
        Scans (column + w.toList.length) [] [{ last with column := column + w.length }] := by
      rcases last with ⟨kind, lexeme, _⟩
      subst hkind hlast
      rw [String.length_toList]
      exact .stop
    simpa [layout, placed, hlast] using hstop.blanks h.isBlank_head
  | cons t us ih =>
    rcases ws with _ | ⟨w, ws⟩
    · exact absurd h.length (by simp)
    rcases List.forall_mem_cons.mp hus with ⟨ht, hus⟩
    have hfits : Fits t (layout ws (us ++ [last])).toList := by
      cases us with
      | nil => exact h.fits ht (.inl ⟨hlast, rfl⟩)
      | cons u us => exact h.fits ht (.inr (hus u List.mem_cons_self))
    have hrest := ih hus h.tail (column + w.length + t.lexeme.length)
    have hscans := (hfits.move (column + w.length)).scans hrest
    rw [List.cons_append, layout, placed, String.toList_append, String.toList_append,
      List.append_assoc]
    refine Scans.blanks h.isBlank_head ?_
    rw [String.length_toList]
    exact hscans

/-- The tokens of a text in another layout are the same ones at other columns. -/
theorem scan_layout {text : String} {tokens : List Token} {ws : List String}
    (h : scan text = .ok tokens) (hws : Gaps ws tokens) :
    scan (layout ws tokens) = .ok (placed 1 ws tokens) := by
  rcases tiles_of_scan h with ⟨us, rfl, -, htiles⟩
  refine scanFrom_of_scans (scans_layout rfl rfl (fun u hu => ?_) hws 1)
  rcases htiles.placed u hu with ⟨-, _, after, -, -, hfits⟩
  exact (show Fits u ([] ++ after) from hfits).of_append

end Token

end ZPlane
