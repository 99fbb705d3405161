import Reckoner.Proofs.Nesting.Glue

/-!
# What the scan bounds

The scan is meant to bound the depth of the tree before it is built. It does so for the
trees whose depth is at most the bound of their charge, and for no others: a call or a
subscript with brackets in its base may be deeper than what it is charged, and so may a
connective behind a number literal. Then some text of the tree passes the scan under a
limit that the tree exceeds, and only the depth of the tree itself tells (`deep`).
-/

namespace Reckoner

open Nesting (Level)

/-! ### Trees that are charged for their depth -/

namespace Nesting.Level

theorem bound_le_joinAll {l : Level} {ls : List Level} (h : l ∈ ls) :
    l.bound ≤ (joinAll ls).bound := by
  induction ls with
  | nil => cases h
  | cons m ls ih =>
    simp only [joinAll_cons, join, bound] at ih ⊢
    rcases List.mem_cons.mp h with rfl | h
    · omega
    · have := ih h
      omega

theorem bound_le_join_left (a b : Level) : a.bound ≤ (a.join b).bound := by
  simp only [join, bound]
  omega

theorem bound_le_join_right (a b : Level) : b.bound ≤ (a.join b).bound := by
  simp only [join, bound]
  omega

end Nesting.Level

namespace Expr

variable {hidden : Bool}

theorem keywordCharge_eq (es : List (String × Expr)) : keywordCharge hidden es =
    Nesting.Level.joinAll (es.map fun ke => .join .operator (ke.2.charge hidden)) := by
  induction es with
  | nil => rfl
  | cons ke es ih =>
    rw [keywordCharge, ih, List.map_cons, Nesting.Level.joinAll_cons]

/-- Whether the charge grows with the root, as the depth does: brackets behind a base hold more
than the base does, and a connective is not hidden. -/
def rootCharged (hidden : Bool) : Expr → Bool
  | .call f args keywords =>
    (f.charge hidden).inner < ((allCharge hidden args).join (keywordCharge hidden keywords)).bound
  | .subscript b i => (b.charge hidden).inner < (i.charge hidden).bound
  | .connect _ l _ => !(hidden && l.endsInNumber)
  | _ => true

/-- A tree is not deeper than its charge if all parts of it are charged. -/
theorem depth_le_charge_bound {e : Expr} (h : ∀ s ∈ e.subterms, s.rootCharged hidden = true) :
    e.depth ≤ (e.charge hidden).bound := by
  induction e using childrenInduction with
  | step e ih =>
    obtain ⟨hroot, hchildren⟩ := forall_subterms_iff.mp h
    have hdepth (c : Expr) (hc : c ∈ e.children) : c.depth ≤ (c.charge hidden).bound :=
      ih c hc (hchildren c hc)
    show e.depth ≤ (e.charge hidden).operators + (e.charge hidden).inner + 1
    rw [depth_le_succ_iff]
    intro c hc
    refine Nat.le_trans (hdepth c hc) ?_
    cases e with
    | number | text | name => cases hc
    | list items =>
      replace hc : c ∈ items := hc
      have := Nesting.Level.bound_le_joinAll (List.mem_map_of_mem (f := charge hidden) hc)
      rw [← allCharge_eq] at this
      simpa [charge, Nesting.Level.bracketed] using this
    | binary op l r | compare op l r =>
      simp only [children, List.mem_cons, List.not_mem_nil, or_false] at hc
      simp only [charge, Nesting.Level.join, Nesting.Level.operator]
      rcases hc with rfl | rfl <;> simp only [Nesting.Level.bound] <;> omega
    | connect op l r =>
      simp only [children, List.mem_cons, List.not_mem_nil, or_false] at hc
      simp only [rootCharged, Bool.not_eq_true'] at hroot
      simp only [charge, hroot, Bool.false_eq_true, if_false, Nesting.Level.join,
        Nesting.Level.operator]
      rcases hc with rfl | rfl <;> simp only [Nesting.Level.bound] <;> omega
    | signed s e | negate e | lambda ps e | assign x e | «attribute» e p =>
      obtain rfl : c = e := by simpa [children] using hc
      simp only [charge, Nesting.Level.join, Nesting.Level.operator, Nesting.Level.bound]
      omega
    | group e =>
      obtain rfl : c = e := by simpa [children] using hc
      simp [charge, Nesting.Level.bracketed]
    | subscript b i =>
      -- the brackets are charged for the base, too, as they hold more than it does
      simp only [children, List.mem_cons, List.not_mem_nil, or_false] at hc
      simp only [rootCharged, decide_eq_true_eq] at hroot
      simp only [charge, Nesting.Level.join, Nesting.Level.bracketed]
      rcases hc with rfl | rfl
      · simp only [Nesting.Level.bound] at hroot ⊢
        omega
      · omega
    | call f args keywords =>
      have harguments (hc : c ∈ args ++ keywords.map Prod.snd) : (c.charge hidden).bound
          ≤ ((allCharge hidden args).join (keywordCharge hidden keywords)).bound := by
        rw [allCharge_eq, keywordCharge_eq]
        rcases List.mem_append.mp hc with hc | hc
        · exact Nat.le_trans (Nesting.Level.bound_le_joinAll (List.mem_map_of_mem hc))
            (Nesting.Level.bound_le_join_left _ _)
        · obtain ⟨ke, hke, rfl⟩ := List.mem_map.mp hc
          calc (ke.2.charge hidden).bound
              ≤ (Nesting.Level.join .operator (ke.2.charge hidden)).bound :=
                Nesting.Level.bound_le_join_right _ _
            _ ≤ (Nesting.Level.joinAll (keywords.map fun ke =>
                  .join .operator (ke.2.charge hidden))).bound :=
                Nesting.Level.bound_le_joinAll (List.mem_map.mpr ⟨ke, hke, rfl⟩)
            _ ≤ _ := Nesting.Level.bound_le_join_right _ _
      simp only [rootCharged, decide_eq_true_eq] at hroot
      rw [charge]
      generalize (allCharge hidden args).join (keywordCharge hidden keywords) = l
        at hroot harguments ⊢
      simp only [Nesting.Level.join, Nesting.Level.bracketed]
      rcases List.mem_cons.mp hc with rfl | hc
      · simp only [Nesting.Level.bound] at hroot ⊢
        omega
      · have := harguments hc
        omega

/-! ### Trees that pass the scan -/

/-- The text is one of the tree, whatever the limit. -/
def IsTreeOf (e : Expr) (text : String) : Prop :=
  ∃ ts, Token.list? text.toList = some ts ∧ Grammar.parse? ts = some e

/-- A text that passes the scan keeps its tree within the limit, if all parts of it are charged. -/
theorem depth_le_of_fits {e : Expr} {text : String} {limit : Nat}
    (h : ∀ s ∈ e.subterms, s.rootCharged true = true) (htext : e.IsTreeOf text)
    (hfits : Nesting.fits limit text.toList = true) : e.depth ≤ limit := by
  obtain ⟨ts, hts, hparse⟩ := htext
  have hw := (Grammar.parse?_eq_some_iff.mp hparse).1
  calc e.depth ≤ (e.charge true).bound := depth_le_charge_bound h
    _ ≤ Nesting.bound text.toList := Nesting.charge_bound_le hts hw
    _ ≤ limit := Nesting.fits_iff.mp hfits

/-- **What the scan bounds.** The texts of a canonical tree that pass the scan under a limit all
keep the tree within this limit if and only if the tree is not deeper than the bound of its charge.
Otherwise, and only then, a text of the tree passes the scan and is refused for the depth of its
tree. -/
theorem fits_bounds_depth_iff {e : Expr} (he : e.canonical = true) :
    ((∀ text limit, e.IsTreeOf text → Nesting.fits limit text.toList = true → e.depth ≤ limit) ↔
      e.depth ≤ (e.charge true).bound) ∧
    ((∃ text limit, e.IsTreeOf text ∧
        parse limit text = .error (.unreadable text (.deep e.depth limit))) ↔
      (e.charge true).bound < e.depth) := by
  obtain ⟨cs, ts, hts, hw, hbound⟩ := Nesting.exists_bound_eq_charge he
  have htree : e.IsTreeOf (String.ofList cs) := by
    refine ⟨ts, by rwa [String.toList_ofList], ?_⟩
    exact Grammar.parse?_eq_some_iff.mpr ⟨hw, (Bool.and_eq_true_iff.mp he).1⟩
  have hle {text : String} (h : e.IsTreeOf text) :
      (e.charge true).bound ≤ Nesting.bound text.toList := by
    obtain ⟨ts, hts, hparse⟩ := h
    exact Nesting.charge_bound_le hts (Grammar.parse?_eq_some_iff.mp hparse).1
  have hread {text : String} (h : e.IsTreeOf text) (limit : Nat) : parse limit text =
      if Nesting.bound text.toList ≤ limit then
        if e.depth ≤ limit then .ok e else .error (.unreadable text (.deep e.depth limit))
      else .error (.unreadable text (.nested limit)) := by
    obtain ⟨ts, hts, hparse⟩ := h
    exact parse_of_writes hts (Grammar.parse?_eq_some_iff.mp hparse).1 he limit
  refine ⟨⟨fun h => ?_, fun h text limit htext hfits => ?_⟩, ⟨?_, fun h => ?_⟩⟩
  · -- the text whose bound is that of the charge
    refine h (String.ofList cs) _ htree ?_
    rw [String.toList_ofList, Nesting.fits_iff, hbound]
  · exact Nat.le_trans h (Nat.le_trans (hle htext) (Nesting.fits_iff.mp hfits))
  · rintro ⟨text, limit, htext, hdeep⟩
    rw [hread htext] at hdeep
    split at hdeep
    · rename_i hfits
      split at hdeep
      · cases hdeep
      · rename_i hdepth
        have := hle htext
        omega
    · cases hdeep
  · refine ⟨String.ofList cs, (e.charge true).bound, htree, ?_⟩
    rw [hread htree, String.toList_ofList, hbound, if_pos (Nat.le_refl _), if_neg (by omega)]

/-- Three calls, one of the other, are charged for one. -/
theorem exists_deep_calls :
    let e := call (call (call (.name "f") [] []) [] []) [] []
    e.canonical = true ∧ ∃ text limit, e.IsTreeOf text ∧
      parse limit text = .error (.unreadable text (.deep e.depth limit)) := by
  intro e
  have hcanonical : e.canonical = true := by decide
  exact ⟨hcanonical, (fits_bounds_depth_iff hcanonical).2.mpr (by decide)⟩

/-- A text that passes the scan for two levels and has a tree of four. -/
theorem deep_calls : Nesting.fits 2 "f()()()".toList = true ∧
    parse 2 "f()()()" = .error (.unreadable "f()()()" (.deep 4 2)) := by
  constructor
  · decide +kernel
  · cbv

/-! ### Calls without end -/

/-- A name with that many calls behind it. -/
def calls : Nat → Expr
  | 0 => .name "f"
  | n + 1 => .call (calls n) [] []

theorem depth_calls (n : Nat) : (calls n).depth = n + 1 := by
  induction n with
  | zero => rfl
  | succ n ih => simp [calls, depth, depths, keywordDepths, ih]

theorem canonical_calls (n : Nat) : (calls n).canonical = true := by
  induction n with
  | zero => decide
  | succ n ih =>
    have hbase : (calls n).isBase .postfixed = true := by
      cases n <;> rfl
    refine canonical_iff.mpr ⟨?_, rfl, by simpa [calls, children] using ih⟩
    simp [calls, rootShaped, hbase]

theorem charge_calls_le (n : Nat) : ((calls n).charge true).bound ≤ 2 := by
  have hcharge (n : Nat) :
      ((calls n).charge true).operators = 0 ∧ ((calls n).charge true).inner ≤ 1 := by
    induction n with
    | zero => exact ⟨rfl, Nat.zero_le _⟩
    | succ n ih =>
      simp only [calls, charge, allCharge, keywordCharge, Nesting.Level.join,
        Nesting.Level.bracketed, Nesting.Level.bound]
      omega
  have := hcharge n
  simp only [Nesting.Level.bound]
  omega

/-- Trees of any depth have texts that pass the scan for two levels. -/
theorem exists_fits_two (n : Nat) :
    ∃ (e : Expr) (text : String), e.depth = n + 1 ∧ e.IsTreeOf text ∧
      Nesting.fits 2 text.toList = true := by
  obtain ⟨cs, ts, hts, hw, hbound⟩ := Nesting.exists_bound_eq_charge (canonical_calls n)
  refine ⟨calls n, String.ofList cs, depth_calls n, ⟨ts, ?_, ?_⟩, ?_⟩
  · rwa [String.toList_ofList]
  · exact Grammar.parse?_eq_some_iff.mpr ⟨hw, (Bool.and_eq_true_iff.mp (canonical_calls n)).1⟩
  · rw [String.toList_ofList, Nesting.fits_iff, hbound]
    exact charge_calls_le n

end Expr

end Reckoner
