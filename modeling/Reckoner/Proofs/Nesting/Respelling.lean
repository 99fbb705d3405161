import Reckoner.Proofs.Expr.Acceptance
import Reckoner.Proofs.Grammar.Numbers
import Reckoner.Proofs.Nesting.Findings

/-!
# The spelling of literals

The tree of a text is as deep whatever its literals are (`depth_eq_of_anonymous_eq`), but the
scan has no rule for them: the sign of an exponent counts as an operator, and so does a point
before a word, and an exponent without a sign hides a keyword that touches it. So a text may
be refused for the spelling of a literal (`signed_exponent_refused`). Literals that count alike
in their places can be exchanged under every limit, and all others where the bound of the scan
stays the same or does not go beyond the depth of the tree (`parse_respelled`).
-/

namespace Reckoner

open Nesting (Mark)

/-! ### Depth -/

namespace Token

/-- The token without its value if it is a number literal. -/
def anonymous : Token → Token := respelled fun _ => ⟨['0'], none, none⟩

theorem isKeyword_anonymous (t : Token) : t.anonymous.isKeyword = t.isKeyword := by
  cases t <;> rfl

end Token

/-- Texts that differ in number literals only have trees of the same depth. -/
theorem Grammar.depth_eq_of_anonymous_eq {ts us : List Token} {d e : Expr}
    (h : ts.map Token.anonymous = us.map Token.anonymous) (hd : parse? ts = some d)
    (he : parse? us = some e) : d.depth = e.depth := by
  let zero : Numeral := ⟨['0'], none, none⟩
  have hparse {ts : List Token} {e : Expr} (h : parse? ts = some e) :
      parse? (ts.map Token.anonymous) = some (e.mapNumbers fun _ => zero.value) := by
    obtain ⟨hw, hshaped⟩ := parse?_eq_some_iff.mp h
    refine parse?_eq_some_iff.mpr ⟨hw.mapNumbers fun _ => rfl, ?_⟩
    rwa [Expr.shaped_mapNumbers]
  have hsame := hparse hd
  rw [h, hparse he, Option.some_inj] at hsame
  rw [← d.depth_mapNumbers, ← hsame, e.depth_mapNumbers]

/-! ### Counting alike -/

namespace Placed

/-- The marks of the first token, unless it is hidden. -/
def shown (swallowed : Bool) : List Placed → List Mark
  | [] => []
  | p :: _ => if p.isHidden swallowed then [] else p.token.marks

/-- What the scan counts for each token in its place: the operators that it finds in a literal, and
the token behind it unless the literal hides this. -/
def counts : List Placed → List (List Mark)
  | [] => []
  | p :: ps => (p.token.strays (ps.head?.map token) ++ shown p.token.swallows ps) :: counts ps

theorem found_eq_shown_append (swallowed : Bool) (ps : List Placed) :
    found swallowed none ps = shown swallowed ps ++ (counts ps).flatten := by
  induction ps generalizing swallowed with
  | nil => rfl
  | cons p ps ih =>
    rw [found, Option.or_none, ih, shown, counts, List.flatten_cons]
    cases hp : p.token with
    | number n => simp [isHidden, hp, Token.isKeyword, Token.marks]
    | text | name | keyword | symbol => simp [Token.strays]

end Placed

/-- The same tokens behind the same gaps, but perhaps with other number literals. -/
def Respelled : List Placed → List Placed → Prop :=
  List.Forall₂ fun p q => p.gap = q.gap ∧ p.token.anonymous = q.token.anonymous

namespace Respelled

variable {ps qs : List Placed}

theorem map_anonymous (h : Respelled ps qs) :
    (ps.map Placed.token).map Token.anonymous = (qs.map Placed.token).map Token.anonymous := by
  induction h with
  | nil => rfl
  | cons hpq rest ih => simp only [List.map_cons, hpq.2, ih]

theorem shown_eq (h : Respelled ps qs) (swallowed : Bool) :
    Placed.shown swallowed ps = Placed.shown swallowed qs := by
  cases h with
  | nil => rfl
  | @cons p q _ _ hpq =>
    obtain ⟨gap, token⟩ := hpq
    have hhidden : p.isHidden swallowed = q.isHidden swallowed := by
      rw [Placed.isHidden, Placed.isHidden, gap, ← p.token.isKeyword_anonymous, token,
        q.token.isKeyword_anonymous]
    have hmarks : p.token.marks = q.token.marks := by
      generalize p.token = t, q.token = u at token
      cases t <;> cases u <;> cases token <;> rfl
    rw [Placed.shown, Placed.shown, hhidden, hmarks]

/-- Where each literal counts alike, the scan finds the same. -/
theorem bound_eq {cs ds : List Char} (h : Respelled ps qs)
    (hcounts : Placed.counts ps = Placed.counts qs) (hps : Token.Laid cs ps)
    (hqs : Token.Laid ds qs) (hp : joined (ps.map Placed.token) = true)
    (hq : joined (qs.map Placed.token) = true) : Nesting.bound cs = Nesting.bound ds := by
  rw [Nesting.bound, Nesting.bound, (Nesting.marks_laid hps hp).1, (Nesting.marks_laid hqs hq).1,
    Placed.found_eq_shown_append, Placed.found_eq_shown_append, h.shown_eq, hcounts]

end Respelled

namespace Expr

/-- A text that says a tree is read as this tree under the limits that leave room for the bound of
the scan and for the tree. -/
theorem parse_eq_ok_iff_max_le {text : String} {ts : List Token} {e : Expr}
    (h : Says text.toList ts e) (limit : Nat) :
    parse limit text = .ok e ↔ max (Nesting.bound text.toList) e.depth ≤ limit := by
  rw [parse_eq_ok_iff, Nat.max_le]
  exact ⟨fun ⟨_, _, hlimit⟩ => hlimit, fun hlimit => ⟨ts, h, hlimit⟩⟩

/-- **Literals that count alike** in their places can be exchanged under every limit. So a literal
with an exponent that has no sign can stand for one without an exponent wherever no keyword
touches it. The trees of texts that only differ in their literals are always of one depth, and the
texts are accepted under the same limits exactly if the greater of the bound of the scan and this
depth is the same. -/
theorem parse_respelled {text text' : String} {ps qs : List Placed} {d e : Expr}
    (hps : Token.Laid text.toList ps) (hqs : Token.Laid text'.toList qs)
    (h : Respelled ps qs)
    (hd : Grammar.parse? (ps.map Placed.token) = some d)
    (he : Grammar.parse? (qs.map Placed.token) = some e)
    (hfinite : Token.firstLarge? (ps.map Placed.token) = none)
    (hfinite' : Token.firstLarge? (qs.map Placed.token) = none) :
    (Placed.counts ps = Placed.counts qs →
      ∀ limit, parse limit text = .ok d ↔ parse limit text' = .ok e) ∧
    d.depth = e.depth ∧
    ((∀ limit, parse limit text = .ok d ↔ parse limit text' = .ok e) ↔
      max (Nesting.bound text.toList) d.depth = max (Nesting.bound text'.toList) e.depth) := by
  have hsaid := Says.of_parse? hps.list?_eq hd hfinite
  have hsaid' := Says.of_parse? hqs.list?_eq he hfinite'
  have hdepth := Grammar.depth_eq_of_anonymous_eq h.map_anonymous hd he
  have hlimits : (∀ limit, parse limit text = .ok d ↔ parse limit text' = .ok e) ↔
      max (Nesting.bound text.toList) d.depth = max (Nesting.bound text'.toList) e.depth := by
    simp only [parse_eq_ok_iff_max_le hsaid, parse_eq_ok_iff_max_le hsaid']
    exact ⟨fun hsame => eq_of_forall_ge_iff hsame, fun heq limit => by rw [heq]⟩
  refine ⟨fun hcounts => hlimits.mpr ?_, hdepth, hlimits⟩
  rw [h.bound_eq hcounts hps hqs hsaid.writes.joined hsaid'.writes.joined, hdepth]

/-- An exponent without a sign before a keyword that it does not touch, an exponent and a point that
count as much as the keyword they hide, and a point at the end. -/
theorem parse_respelled_hidden :
    let l : Numeral := ⟨['1'], none, some ⟨'e', none, ['3']⟩⟩
    let m : Numeral := ⟨['1'], some [], some ⟨'E', none, ['5']⟩⟩
    let n : Numeral := ⟨['2'], some [], none⟩
    let one : Numeral := ⟨['1'], none, none⟩
    let seven : Numeral := ⟨['0', '7'], none, none⟩
    let half : Numeral := ⟨[], some ['5'], none⟩
    ∀ limit,
      parse limit "1e3 and 1.E5and 2." =
          .ok (.connect .and (.connect .and (.number l.value) (.number m.value))
            (.number n.value)) ↔
        parse limit "1 and 07and .5" =
          .ok (.connect .and (.connect .and (.number one.value) (.number seven.value))
            (.number half.value)) := by
  intro l m n one seven half
  have hps : Token.Laid "1e3 and 1.E5and 2.".toList [⟨[], ['1', 'e', '3'], .number l⟩,
      ⟨[' '], ['a', 'n', 'd'], .keyword .and⟩, ⟨[' '], ['1', '.', 'E', '5'], .number m⟩,
      ⟨[], ['a', 'n', 'd'], .keyword .and⟩, ⟨[' '], ['2', '.'], .number n⟩] := by
    have hlast : Token.Laid [' ', '2', '.'] [⟨[' '], ['2', '.'], .number n⟩] :=
      .cons (p := ⟨[' '], ['2', '.'], .number n⟩) rfl (by decide +kernel) (.blank List.all_nil)
    exact .cons (p := ⟨[], ['1', 'e', '3'], .number l⟩) rfl (by decide +kernel)
      (.cons (p := ⟨[' '], ['a', 'n', 'd'], .keyword .and⟩) rfl (by decide +kernel)
        (.cons (p := ⟨[' '], ['1', '.', 'E', '5'], .number m⟩) rfl (by decide +kernel)
          (.cons (p := ⟨[], ['a', 'n', 'd'], .keyword .and⟩) rfl (by decide +kernel) hlast)))
  have hqs : Token.Laid "1 and 07and .5".toList [⟨[], ['1'], .number one⟩,
      ⟨[' '], ['a', 'n', 'd'], .keyword .and⟩, ⟨[' '], ['0', '7'], .number seven⟩,
      ⟨[], ['a', 'n', 'd'], .keyword .and⟩, ⟨[' '], ['.', '5'], .number half⟩] := by
    have hlast : Token.Laid [' ', '.', '5'] [⟨[' '], ['.', '5'], .number half⟩] :=
      .cons (p := ⟨[' '], ['.', '5'], .number half⟩) rfl (by decide +kernel) (.blank List.all_nil)
    exact .cons (p := ⟨[], ['1'], .number one⟩) rfl (by decide +kernel)
      (.cons (p := ⟨[' '], ['a', 'n', 'd'], .keyword .and⟩) rfl (by decide +kernel)
        (.cons (p := ⟨[' '], ['0', '7'], .number seven⟩) rfl (by decide +kernel)
          (.cons (p := ⟨[], ['a', 'n', 'd'], .keyword .and⟩) rfl (by decide +kernel) hlast)))
  refine (parse_respelled hps hqs ?_ rfl rfl (by decide +kernel) (by decide +kernel)).1 rfl
  exact .cons ⟨rfl, rfl⟩ (.cons ⟨rfl, rfl⟩ (.cons ⟨rfl, rfl⟩ (.cons ⟨rfl, rfl⟩
    (.cons ⟨rfl, rfl⟩ .nil))))

/-- In `1 + 2` and `1e3 + 2` the first literals count alike. -/
example :
    let two : Placed := ⟨[' '], ['2'], .number ⟨['2'], none, none⟩⟩
    let plus : Placed := ⟨[' '], ['+'], .symbol .plus⟩
    Placed.counts [⟨[], ['1'], .number ⟨['1'], none, none⟩⟩, plus, two] =
      Placed.counts [⟨[], ['1', 'e', '3'], .number ⟨['1'], none, some ⟨'e', none, ['3']⟩⟩⟩,
        plus, two] := rfl

/-- A literal is read under the least limit, and refused with a sign in its exponent. -/
theorem signed_exponent_refused :
    let plain : Numeral := ⟨['1'], none, none⟩
    let signed : Numeral := ⟨['1'], none, some ⟨'e', some '-', ['3']⟩⟩
    parse 1 "1" = .ok (.number plain.value) ∧
      parse 1 "1e-3" = .error (.unreadable "1e-3" (.nested 1)) ∧
        parse 2 "1e-3" = .ok (.number signed.value) := by
  intro plain signed
  have hplain : Says "1".toList [.number plain] (.number plain.value) :=
    .of_parse? (by cbv) rfl (by decide +kernel)
  have hsigned : Says "1e-3".toList [.number signed] (.number signed.value) :=
    .of_parse? (by cbv) rfl (by decide +kernel)
  have hread := parse_of_writes hsigned.tokens hsigned.writes hsigned.canonical
  refine ⟨?_, ?_, ?_⟩
  · rw [parse_of_writes hplain.tokens hplain.writes hplain.canonical, if_pos (by cbv)]
    rfl
  · rw [hread, if_neg (by cbv)]
  · rw [hread, if_pos (by cbv)]
    rfl

end Expr

end Reckoner
