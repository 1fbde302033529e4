import EquationCompiler.Proofs.NumberText

/-!
# Reading what was printed

The text of an expression is read as the formula that its layout says, in either
dialect. The names in it have to be tokens, and sums and calls must not be empty.
-/
namespace EquationCompiler
open Token Formula

namespace Formula

lemma IsTerm.isSum {ts : List Token} {f : Formula} (h : IsTerm ts f) : IsSum ts f := by
  simpa using IsSum.mk h (.nil f)

lemma IsSigned.isTerm {ts : List Token} {f : Formula} (h : IsSigned ts f) : IsTerm ts f := by
  simpa using IsTerm.mk h (.nil f)

lemma IsOperand.starts {ts : List Token} {f : Formula} (h : IsOperand ts f) :
    ∃ t more, ts = t :: more ∧ t ≠ star ∧ t ≠ Token.power := by
  cases h <;> exact ⟨_, _, rfl, by simp, by simp⟩

/-- A signed factor does not start with a star. -/
lemma IsSigned.starts {ts : List Token} {f : Formula} (h : IsSigned ts f) :
    ∃ t more, ts = t :: more ∧ t ≠ star ∧ t ≠ Token.power := by
  cases h with
  | minus h | plus h => exact ⟨_, _, rfl, by simp, by simp⟩
  | power h =>
    cases h with
    | operand h => exact h.starts
    | power hbase hexponent =>
      obtain ⟨t, more, rfl, ht⟩ := hbase.starts
      exact ⟨t, _, rfl, ht⟩

/-- What is read from a text is derived from its tokens. -/
lemma isSum_of_read {text : String} {f : Formula} (h : read text = .ok f) :
    IsSum (tokens text.toList) f :=
  read_eq_ok.mp h

/-- The names of a formula that is read from a text are well formed. -/
lemma isName_of_read {text : String} {f : Formula} {s : String} (h : read text = .ok f)
    (hs : s ∈ f.names) : IsName s.toList :=
  isName_of_mem_tokens (mem_of_mem_names (isSum_of_read h) hs)

end Formula

namespace Layout

/-- The tokens continue a term by the factors. -/
inductive IsTail : List Token → List (Bool × Formula) → Prop
  | nil : IsTail [] []
  | star {ts us : List Token} {g : Formula} {tail : List (Bool × Formula)}
      (hsigned : IsSigned ts g) (hmore : IsTail us tail) :
      IsTail (Token.star :: (ts ++ us)) ((false, g) :: tail)
  | slash {ts us : List Token} {g : Formula} {tail : List (Bool × Formula)}
      (hsigned : IsSigned ts g) (hmore : IsTail us tail) :
      IsTail (Token.slash :: (ts ++ us)) ((true, g) :: tail)

lemma IsTail.append {ts us : List Token} {tail more : List (Bool × Formula)} (h : IsTail ts tail)
    (hmore : IsTail us more) : IsTail (ts ++ us) (tail ++ more) := by
  induction h with
  | nil => exact hmore
  | star hsigned _ ih => simpa using IsTail.star hsigned ih
  | slash hsigned _ ih => simpa using IsTail.slash hsigned ih

lemma IsTail.moreFactors {ts : List Token} {tail : List (Bool × Formula)} (h : IsTail ts tail)
    (f : Formula) : MoreFactors f ts (tail.foldl extend f) := by
  induction h generalizing f with
  | nil => exact .nil f
  | star hsigned _ ih => exact .star hsigned (ih _)
  | slash hsigned _ ih => exact .slash hsigned (ih _)

/-- The tokens are a text with this layout. -/
def Fits (l : Layout) (ts : List Token) : Prop :=
  match l.precedence with
  | .sum => l.tail = [] ∧ IsSum ts l.head
  | .product => ∃ us vs, ts = us ++ vs ∧ IsSigned us l.head ∧ IsTail vs l.tail
  | .power => l.tail = [] ∧ IsPower ts l.head
  | .atom => l.tail = [] ∧ IsOperand ts l.head

variable {l : Layout} {ts : List Token}

lemma Fits.isOperand (h : l.Fits ts) (hrank : Precedence.atom.rank ≤ l.precedence.rank) :
    IsOperand ts l.formula := by
  obtain ⟨head, tail, precedence⟩ := l
  cases precedence with
  | sum | product | power => exact absurd hrank (by simp [Precedence.rank])
  | atom =>
    obtain ⟨rfl, hhead⟩ := h
    exact hhead

lemma Fits.isPower (h : l.Fits ts) (hrank : Precedence.power.rank ≤ l.precedence.rank) :
    IsPower ts l.formula := by
  obtain ⟨head, tail, precedence⟩ := l
  cases precedence with
  | sum | product => exact absurd hrank (by simp [Precedence.rank])
  | power =>
    obtain ⟨rfl, hhead⟩ := h
    exact hhead
  | atom => exact .operand (h.isOperand le_rfl)

lemma Fits.factors (h : l.Fits ts) (hrank : Precedence.product.rank ≤ l.precedence.rank) :
    ∃ us vs, ts = us ++ vs ∧ IsSigned us l.head ∧ IsTail vs l.tail := by
  obtain ⟨head, tail, precedence⟩ := l
  cases precedence with
  | sum => exact absurd hrank (by simp [Precedence.rank])
  | product => exact h
  | power =>
    have hpower := h.isPower le_rfl
    obtain ⟨rfl, -⟩ := h
    exact ⟨ts, [], by simp, .power hpower, .nil⟩
  | atom =>
    have hoperand := h.isOperand le_rfl
    obtain ⟨rfl, -⟩ := h
    exact ⟨ts, [], by simp, .power (.operand hoperand), .nil⟩

lemma Fits.isTerm (h : l.Fits ts) (hrank : Precedence.product.rank ≤ l.precedence.rank) :
    IsTerm ts l.formula := by
  obtain ⟨us, vs, rfl, hhead, htail⟩ := h.factors hrank
  exact .mk hhead (htail.moreFactors _)

lemma Fits.isSum (h : l.Fits ts) : IsSum ts l.formula := by
  obtain ⟨head, tail, precedence⟩ := l
  cases precedence with
  | sum =>
    obtain ⟨rfl, hhead⟩ := h
    exact hhead
  | product | power | atom => exact (h.isTerm (by simp [Precedence.rank])).isSum

/-- The text is read as the layout says. -/
def Writes (text : String) (l : Layout) : Prop := ∃ ts, Spells text.toList ts ∧ l.Fits ts

lemma writes_single_sum {text : String} {f : Formula} {ts : List Token}
    (hspells : Spells text.toList ts) (h : IsSum ts f) : Writes text (single f .sum) :=
  ⟨ts, hspells, rfl, h⟩

lemma writes_single_product {text : String} {f : Formula} {ts : List Token}
    (hspells : Spells text.toList ts) (h : IsSigned ts f) : Writes text (single f .product) :=
  ⟨ts, hspells, ts, [], by simp, h, .nil⟩

lemma writes_single_atom {text : String} {f : Formula} {ts : List Token}
    (hspells : Spells text.toList ts) (h : IsOperand ts f) : Writes text (single f .atom) :=
  ⟨ts, hspells, rfl, h⟩

/-- A sign before a term is read as part of its first factor. -/
lemma Writes.negate {text : String} (h : l.Writes text)
    (hrank : Precedence.product.rank ≤ l.precedence.rank) : l.negate.Writes ("-" ++ text) := by
  obtain ⟨ts, hspells, hfits⟩ := h
  obtain ⟨us, vs, rfl, hhead, htail⟩ := hfits.factors hrank
  refine writes_single_sum ?_ (IsTerm.mk (.minus hhead) (htail.moreFactors _)).isSum
  rw [String.toList_append]
  exact hspells.operator rfl

end Layout

/-- A printed text is read as the layout says and binds as tightly. -/
structure Renders (p : Printed) (l : Layout) : Prop where
  precedence : l.precedence = p.precedence
  writes : l.Writes p.text

lemma separates_cons {c : Char} (h : isNameChar c = false ∧ c ≠ '.') (cs : List Char) :
    Separates (c :: cs) := by
  intro d hd
  obtain rfl : c = d := Option.some.inj hd
  simpa using h

/-- What stands between parentheses is read as a whole. -/
lemma spells_group {cs : List Char} {ts : List Token} (h : Spells cs ts) :
    Spells ('(' :: (cs ++ [')'])) (opening :: (ts ++ [closing])) :=
  (h.append (spells_nil.operator rfl) (separates_cons (by decide) [])).operator rfl

lemma Renders.atLeast {p : Printed} {l : Layout} (h : Renders p l) (needed : Precedence) :
    (l.atLeast needed).Writes (p.atLeast needed) := by
  unfold Layout.atLeast Printed.atLeast
  rw [h.precedence]
  split_ifs
  · obtain ⟨ts, hspells, hfits⟩ := h.writes
    have htext : ("(" ++ p.text ++ ")").toList = '(' :: (p.text.toList ++ [')']) := by simp
    refine Layout.writes_single_atom ?_ (.group hfits.isSum)
    rw [htext]
    exact spells_group hspells
  · exact h.writes

/-- A text with its layout that can be a factor. -/
def IsFactor (i : String × Layout) : Prop :=
  i.2.Writes i.1 ∧ Precedence.product.rank ≤ i.2.precedence.rank

lemma Renders.isFactor {p : Printed} {l : Layout} (h : Renders p l) (needed : Precedence)
    (hneeded : Precedence.product.rank ≤ needed.rank) :
    IsFactor (p.atLeast needed, l.atLeast needed) :=
  ⟨h.atLeast needed, hneeded.trans (l.rank_atLeast needed)⟩

lemma spells_factor {cs : List Char} {ts us : List Token} {f : Formula}
    (hspells : Spells cs (ts ++ us)) (hsigned : IsSigned ts f) :
    Spells ('*' :: cs) (star :: (ts ++ us)) := by
  obtain ⟨t, more, rfl, hstar, hpower⟩ := hsigned.starts
  exact hspells.star hstar hpower

/-- Factors joined by stars. -/
lemma writes_stars (items : List (String × Layout)) (hne : items ≠ [])
    (h : ∀ i ∈ items, IsFactor i) :
    (Layout.chain (items.map Prod.snd)).Writes ("*".intercalate (items.map Prod.fst)) := by
  induction items with
  | nil => exact absurd rfl hne
  | cons i items ih =>
    rw [List.forall_mem_cons] at h
    obtain ⟨⟨ts, hspells, hfits⟩, hrank⟩ := h.1
    obtain ⟨us, vs, rfl, hhead, htail⟩ := hfits.factors hrank
    cases items with
    | nil =>
      refine ⟨us ++ vs, by simpa using hspells, us, vs, rfl, hhead, ?_⟩
      simpa [Layout.chain] using htail
    | cons j items =>
      obtain ⟨_, hrest, us', vs', rfl, hhead', htail'⟩ := ih (by simp) h.2
      refine ⟨(us ++ vs) ++ star :: (us' ++ vs'), ?_, us, vs ++ star :: (us' ++ vs'), by simp,
        hhead, ?_⟩
      · have htext : ("*".intercalate ((i :: j :: items).map Prod.fst)).toList =
            i.1.toList ++ '*' :: ("*".intercalate ((j :: items).map Prod.fst)).toList := by
          simp [String.intercalate_cons_cons]
        rw [htext]
        exact hspells.append (spells_factor hrest hhead') (separates_cons (by decide) _)
      · have hitems : (Layout.chain ((i :: j :: items).map Prod.snd)).tail =
            i.2.tail ++ (Layout.chain ((j :: items).map Prod.snd)).items := by
          simp [Layout.chain, Layout.items]
        rw [hitems]
        exact htail.append (.star hhead' htail')

namespace Expr
variable {α : Type} [Numeral α] [Legible α] {d : Dialect} {print : Expr α → Printed}
  {layout : Expr α → Layout}

lemma isFactor_numeral (x : α) (divides : Bool) :
    IsFactor (d.number x divides, .single (d.numeral x divides) .product) := by
  obtain ⟨ts, hspells, hsigned⟩ := d.spells_numeral x divides
  exact ⟨Layout.writes_single_product hspells hsigned, le_rfl⟩

lemma isFactor_divisor {e : Expr α} (h : Renders (print e) (layout e)) {needed : Precedence}
    (hneeded : Precedence.product.rank ≤ needed.rank) :
    IsFactor (printDivisor d print needed e, layoutDivisor d layout needed e) := by
  cases e with
  | number x => exact isFactor_numeral x true
  | _ => exact h.isFactor needed hneeded

lemma spells_single_divisor {e : Expr α} (h : Renders (print e) (layout e)) :
    ∃ ts, Spells (printDivisor d print .power e).toList ts ∧
      IsSigned ts (layoutDivisor d layout .power e).formula := by
  cases e with
  | number x => exact d.spells_numeral x true
  | _ =>
    obtain ⟨ts, hspells, hfits⟩ := h.atLeast .power
    exact ⟨ts, hspells, .power (hfits.isPower (Layout.rank_atLeast _ _))⟩

/-- The divisors after a division line. -/
lemma spells_below {es : List (Expr α)} (h : ∀ e ∈ es, Renders (print e) (layout e)) :
    ∃ ts, Spells (printBelow d print es).toList ts ∧
      Layout.IsTail ts (layoutBelow d layout es) ∧
      Separates (printBelow d print es).toList := by
  match es with
  | [] => exact ⟨[], spells_nil, .nil, by simp [printBelow, Separates]⟩
  | [e] =>
    obtain ⟨ts, hspells, hsigned⟩ := spells_single_divisor (d := d) (h e (by simp))
    have htext : (printBelow d print [e]).toList = '/' :: (printDivisor d print .power e).toList := by
      simp [printBelow]
    rw [htext]
    refine ⟨slash :: (ts ++ []), ?_, .slash hsigned .nil, separates_cons (by decide) _⟩
    rw [List.append_nil]
    exact hspells.operator rfl
  | e :: f :: more =>
    have hstars := writes_stars ((e :: f :: more).map fun e =>
      (printDivisor d print .product e, layoutDivisor d layout .product e)) (by simp) (by
        intro i hi
        obtain ⟨e, he, rfl⟩ := List.mem_map.mp hi
        exact isFactor_divisor (h e he) le_rfl)
    rw [List.map_map, List.map_map] at hstars
    obtain ⟨ts, hspells, hfits⟩ := hstars
    have htext : (printBelow d print (e :: f :: more)).toList = '/' :: '(' ::
        (("*".intercalate ((e :: f :: more).map (printDivisor d print .product))).toList ++ [')']) := by
      simp [printBelow]
    rw [htext]
    refine ⟨slash :: (opening :: (ts ++ [closing]) ++ []), ?_,
      .slash (.power (.operand (.group hfits.isSum))) .nil, separates_cons (by decide) _⟩
    rw [List.append_nil]
    exact (spells_group hspells).operator rfl

/-- The text of the number before the factors above the line, if it is written. -/
def leadText (d : Dialect) (f : Fraction α) : List String :=
  let size := Scalar.magnitude f.coefficient
  if !Scalar.isOne size || f.above.isEmpty then
    [d.number size (f.above.isEmpty && !f.below.isEmpty)]
  else []

/-- What is written before the division line. -/
lemma writes_above {f : Fraction α} (h : ∀ e ∈ f.above, Renders (print e) (layout e)) :
    (Layout.chain (layoutLead d f ++ f.above.map fun e => (layout e).atLeast .product)).Writes
      ("*".intercalate (leadText d f ++ f.above.map fun e => (print e).atLeast .product)) := by
  have habove : ∀ i ∈ f.above.map fun e =>
      ((print e).atLeast .product, (layout e).atLeast .product), IsFactor i := by
    intro i hi
    obtain ⟨e, he, rfl⟩ := List.mem_map.mp hi
    exact (h e he).isFactor .product le_rfl
  by_cases hlead : (!Scalar.isOne (Scalar.magnitude f.coefficient) || f.above.isEmpty) = true
  · have hnumber := isFactor_numeral (d := d) (Scalar.magnitude f.coefficient)
      (f.above.isEmpty && !f.below.isEmpty)
    have hstars := writes_stars _ (by simp) (List.forall_mem_cons.mpr ⟨hnumber, habove⟩)
    simpa [layoutLead, leadText, hlead, Function.comp_def] using hstars
  · have hne : f.above ≠ [] := by
      rintro h0
      simp [h0] at hlead
    have hstars := writes_stars _ (by simpa using hne) habove
    simpa [layoutLead, leadText, hlead, Function.comp_def] using hstars

/-- A fraction is read as its layout says. -/
lemma renders_fraction {fs : List (Expr α)}
    (h : ∀ e ∈ (Fraction.ofFactors fs).above ++ (Fraction.ofFactors fs).below,
      Renders (print e) (layout e)) :
    Renders (printProduct d print fs) (layoutFraction d layout (Fraction.ofFactors fs)) := by
  obtain ⟨habove, hbelow⟩ := List.forall_mem_append.mp h
  obtain ⟨_, hspells, hfits⟩ := writes_above (d := d) habove
  obtain ⟨us, vs, rfl, hhead, htail⟩ := hfits.factors (by rw [Layout.precedence_chain])
  obtain ⟨ws, hdivisors, hline, hsep⟩ := spells_below (d := d) hbelow
  have htext := hspells.append hdivisors hsep
  rw [List.append_assoc, ← String.toList_append] at htext
  have hunsigned : (layoutUnsigned d layout (Fraction.ofFactors fs)).Writes _ :=
    ⟨_, htext, us, vs ++ ws, rfl, hhead, htail.append hline⟩
  unfold printProduct layoutFraction
  by_cases hnegative : Scalar.isNegative (Fraction.ofFactors fs).coefficient = true
  · simp only [if_pos hnegative]
    exact ⟨rfl, hunsigned.negate le_rfl⟩
  · simp only [if_neg hnegative]
    exact ⟨rfl, hunsigned⟩

omit [Legible α]

/-- A term after the first one, with the sign before it. -/
def laterText (print : Expr α → Printed) (t : Expr α) : String :=
  (if (splitSign t).1 then " - " else " + ") ++ (print (splitSign t).2).atLeast .product

/-- Terms after the first one. -/
lemma spells_terms {ts : List (Expr α)}
    (h : ∀ t ∈ ts, Renders (print (splitSign t).2) (layout (splitSign t).2)) (f : Formula) :
    ∃ us, Spells (String.join (ts.map (laterText print))).toList us ∧
      MoreTerms f us (ts.foldl (addTerm layout) f) ∧
      Separates (String.join (ts.map (laterText print))).toList := by
  induction ts generalizing f with
  | nil => exact ⟨[], spells_nil, .nil f, by simp [Separates]⟩
  | cons t ts ih =>
    rw [List.forall_mem_cons] at h
    obtain ⟨⟨us, hspells, hfits⟩, hrank⟩ := h.1.isFactor .product le_rfl
    have hterm := hfits.isTerm hrank
    rw [Layout.formula_atLeast] at hterm
    obtain ⟨vs, hrest, hmore, hsep⟩ := ih h.2 (addTerm layout f t)
    have hspells := (hspells.append hrest hsep).blank
    rw [String.toList_join] at hspells ⊢
    rw [List.map_cons, List.flatMap_cons]
    by_cases hsign : (splitSign t).1 = true
    · have hlater : (laterText print t).toList =
          ' ' :: '-' :: ' ' :: ((print (splitSign t).2).atLeast .product).toList := by
        simp [laterText, hsign]
      rw [hlater]
      simp only [List.foldl_cons, addTerm, hsign, if_true] at hmore ⊢
      exact ⟨_, (hspells.operator rfl).blank, .minus hterm hmore, separates_cons (by decide) _⟩
    · have hlater : (laterText print t).toList =
          ' ' :: '+' :: ' ' :: ((print (splitSign t).2).atLeast .product).toList := by
        simp [laterText, hsign]
      rw [hlater]
      simp only [List.foldl_cons, addTerm, hsign] at hmore ⊢
      exact ⟨_, (hspells.operator rfl).blank, .plus hterm hmore, separates_cons (by decide) _⟩

/-- The first term of a sum with its sign. -/
lemma spells_first {text : String} {l : Layout} (h : IsFactor (text, l)) (negative : Bool) :
    ∃ ts, Spells ((if negative then "-" else "") ++ text).toList ts ∧
      IsTerm ts (if negative then l.negate.formula else l.formula) := by
  obtain ⟨⟨ts, hspells, hfits⟩, hrank⟩ := h
  cases negative with
  | true =>
    obtain ⟨us, vs, rfl, hhead, htail⟩ := hfits.factors hrank
    refine ⟨_, ?_, IsTerm.mk (.minus hhead) (htail.moreFactors _)⟩
    simpa using hspells.operator (c := '-') rfl
  | false => exact ⟨ts, by simpa using hspells, hfits.isTerm hrank⟩

/-- A sum is read as its layout says. -/
lemma renders_sum {ts : List (Expr α)} (hne : ts ≠ [])
    (h : ∀ t ∈ ts, Renders (print (splitSign t).2) (layout (splitSign t).2)) :
    Renders (printSum print ts) (layoutSum layout ts) := by
  obtain ⟨t, ts, rfl⟩ := List.exists_cons_of_ne_nil hne
  rw [List.forall_mem_cons] at h
  obtain ⟨us, hfirst, hterm⟩ := spells_first (h.1.isFactor .product le_rfl) (splitSign t).1
  obtain ⟨vs, hrest, hmore, hsep⟩ := spells_terms h.2 _
  have hspells := hfirst.append hrest hsep
  rw [← String.toList_append] at hspells
  have htext : (printSum print (t :: ts)).text = (if (splitSign t).1 then "-" else "") ++
      (print (splitSign t).2).atLeast .product ++ String.join (ts.map (laterText print)) := by
    simp only [printSum, joinTerms, List.map_cons, List.map_map]
    rfl
  rw [layoutSum_cons]
  refine ⟨rfl, Layout.writes_single_sum ?_ (.mk hterm hmore)⟩
  rw [htext]
  exact hspells

omit [Numeral α] in
/-- Arguments of a function up to the closing parenthesis. -/
lemma spells_arguments {args : List (Expr α)} (hne : args ≠ [])
    (h : ∀ a ∈ args, Renders (print a) (layout a)) :
    ∃ f fs ts us, args.map (fun a => (layout a).formula) = f :: fs ∧ IsSum ts f ∧
      MoreArguments us fs ∧
      Spells ((", ".intercalate (args.map fun a => (print a).text)).toList ++ [')']) (ts ++ us) := by
  induction args with
  | nil => exact absurd rfl hne
  | cons a args ih =>
    rw [List.forall_mem_cons] at h
    obtain ⟨ts, hspells, hfits⟩ := h.1.writes
    cases args with
    | nil =>
      refine ⟨_, [], ts, [closing], rfl, hfits.isSum, .closing, ?_⟩
      simpa using hspells.append (spells_nil.operator (c := ')') rfl) (separates_cons (by decide) [])
    | cons b args =>
      obtain ⟨g, gs, us, vs, hformulas, hsum, hmore, hrest⟩ := ih (by simp) h.2
      refine ⟨_, g :: gs, ts, comma :: (us ++ vs), by rw [List.map_cons, hformulas], hfits.isSum,
        .comma hsum hmore, ?_⟩
      have htext : (", ".intercalate ((a :: b :: args).map fun a => (print a).text)).toList ++ [')'] =
          (print a).text.toList ++ ',' :: ' ' ::
            ((", ".intercalate ((b :: args).map fun a => (print a).text)).toList ++ [')']) := by
        simp [String.intercalate_cons_cons]
      rw [htext]
      exact hspells.append (hrest.blank.operator rfl) (separates_cons (by decide) _)

omit [Numeral α] in
/-- The application of a name to printed arguments. -/
lemma renders_application (name : String) (hname : IsName name.toList) (args : List (Expr α))
    (hne : args ≠ []) (h : ∀ a ∈ args, Renders (print a) (layout a)) :
    Renders ⟨name ++ "(" ++ ", ".intercalate (args.map fun a => (print a).text) ++ ")", .atom⟩
      (.single (.call name (args.map fun a => (layout a).formula)) .atom) := by
  obtain ⟨f, fs, ts, us, hformulas, hsum, hmore, hspells⟩ := spells_arguments hne h
  rw [hformulas]
  refine ⟨rfl, Layout.writes_single_atom ?_ (.call name hsum hmore)⟩
  have hall := (spells_name hname).append (hspells.operator (c := '(') rfl)
    (separates_cons (by decide) _)
  simpa using hall

lemma renders_name {s : String} (hname : IsName s.toList) :
    Renders ⟨s, .atom⟩ (.single (.name s) .atom) := by
  have hspells := spells_name hname
  rw [String.ofList_toList] at hspells
  exact ⟨rfl, Layout.writes_single_atom hspells (.name s)⟩

/-- A power is read as its layout says. -/
lemma renders_power {b e : Expr α} (hb : Renders (print b) (layout b))
    (he : Renders (print e) (layout e)) :
    Renders (printPower d print b e) (layoutPower d layout b e) := by
  unfold printPower layoutPower
  split_ifs
  · have hsqrt := renders_application "sqrt" (by decide) [b] (by simp)
      (by simpa using hb)
    simpa using hsqrt
  · cases d with
    | cpp =>
      have hpow := renders_application "pow" (by decide) [b, e] (by simp)
        (by simpa using ⟨hb, he⟩)
      simpa [String.intercalate_cons_cons, String.append_assoc] using hpow
    | formula =>
      obtain ⟨ts, hbase, hfits⟩ := hb.atLeast .atom
      obtain ⟨us, hexponent, hfits'⟩ := he.atLeast .atom
      have hoperand := hfits.isOperand (Layout.rank_atLeast _ _)
      have hsigned := hfits'.isOperand (Layout.rank_atLeast _ _)
      rw [Layout.formula_atLeast] at hoperand hsigned
      refine ⟨rfl, ts ++ Token.power :: us, ?_, rfl, .power hoperand (.power (.operand hsigned))⟩
      have hall := hbase.append hexponent.power (separates_cons (by decide) _)
      simpa using hall

/-- Names are tokens, and neither sums nor calls are empty. -/
inductive Writable : Expr α → Prop
  | number (x : α) : Writable (number x)
  | symbol {s : String} (h : IsName s.toList) : Writable (symbol s)
  | constant (c : Constant) : Writable (constant c)
  | sum {ts : List (Expr α)} (hne : ts ≠ []) (h : ∀ t ∈ ts, Writable t) : Writable (sum ts)
  | product {fs : List (Expr α)} (h : ∀ f ∈ fs, Writable f) : Writable (product fs)
  | power {b e : Expr α} (hb : Writable b) (he : Writable e) : Writable (power b e)
  | call {f : Elementary} {args : List (Expr α)} (hne : args ≠ []) (h : ∀ a ∈ args, Writable a) :
    Writable (call f args)

omit [Numeral α] in
lemma hereditary_writable : Hereditary (Writable : Expr α → Prop) where
  number := .number
  sum := .sum
  of_sum h := by cases h; assumption
  product := .product
  of_product h := by cases h; assumption
  power := .power
  of_power h := by cases h; exact ⟨by assumption, by assumption⟩
  call {f args} hlength h := by
    refine .call ?_ h
    rintro rfl
    cases f <;> cases hlength
  of_call h := by cases h; assumption

lemma isName_function (d : Dialect) (f : Elementary) : IsName (d.function f).toList := by
  cases d <;> cases f <;> decide

lemma isName_constant (d : Dialect) (c : Constant) : IsName (d.constant c).toList := by
  cases d <;> cases c <;> decide

variable [Legible α]

/-- The text of an expression is read as its layout says if the texts of its parts are. -/
lemma renders_printWith {e : Expr α} (he : Writable e)
    (h : ∀ p ∈ e.parts, Renders (print p) (layout p)) :
    Renders (printWith d print e) (layoutWith d layout e) := by
  cases he with
  | number x =>
    rw [printWith, layoutWith]
    by_cases hx : Scalar.isNegative x = true
    · simp only [if_pos hx]
      obtain ⟨ts, hspells, hsigned⟩ := d.spells_numeral x false
      exact ⟨rfl, Layout.writes_single_sum hspells hsigned.isTerm.isSum⟩
    · simp only [if_neg hx]
      obtain ⟨ts, hspells, hoperand⟩ := d.spells_numeral_of_not_isNegative (Bool.eq_false_iff.mpr hx)
      exact ⟨rfl, Layout.writes_single_atom hspells hoperand⟩
  | symbol hs => exact renders_name hs
  | constant c => exact renders_name (isName_constant d c)
  | sum hne hts => exact renders_sum hne fun t ht => h _ (List.mem_map.mpr ⟨t, ht, rfl⟩)
  | product hfs => exact renders_fraction h
  | @power b e hb he =>
    rw [parts] at h
    rw [printWith, layoutWith]
    split_ifs at h ⊢
    · exact renders_fraction h
    · exact renders_power (h b (by simp)) (h e (by simp))
  | call hne hargs => exact renders_application _ (isName_function d _) _ hne h

/-- Printing within enough rounds. -/
theorem renders_printIn (d : Dialect) {rounds : ℕ} {e : Expr α} (he : Writable e)
    (hrounds : e.bulk < rounds) : Renders (printIn d rounds e) (layoutIn d rounds e) :=
  rounds_induction (R := fun rounds e => Renders (printIn d rounds e) (layoutIn d rounds e))
    hereditary_writable.of_mem_parts renders_printWith he hrounds

/-- What is printed is read again, in either dialect, as the formula that the layout says. -/
theorem read_print (d : Dialect) {e : Expr α} (he : Writable e) :
    Formula.read (e.print d).text = .ok (e.written d) := by
  obtain ⟨ts, hspells, hfits⟩ := (renders_printIn d he e.bulk_lt_rounds).writes
  rw [read_eq_ok, show tokens (e.print d).text.toList = ts from hspells.tokens_eq]
  exact hfits.isSum

end Expr

end EquationCompiler
