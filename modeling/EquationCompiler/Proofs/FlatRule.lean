import EquationCompiler.Proofs.TokenRules

/-!
# The flat rule of expressions

An expression is a row of signs, operands and operators. How the row goes on at a
place, and which rules have failed there, depends on the next token only, apart from
what the nested expressions give.
-/
namespace EquationCompiler

namespace Token

/-- The rule of the operator that a token stands for between operands. -/
def joins? : Token → Option Rule
  | plus => some .add
  | minus => some .sub
  | power => some .pow
  | star => some .mul
  | slash => some .div
  | _ => none

end Token

namespace Parser
open Token
variable {p q r : Parser} {x rest : List Char} {a b : Attempts} {ps : List Pair}

/-- A word uses up its characters. -/
lemma uses_word {s : String} (hs : 0 < s.toList.length) : Uses 1 (token (.word s)) :=
  .token fun {x rest} h => by
    rw [← List.isPrefixOf?_eq_some_iff_append_eq.mp h, List.length_append]
    omega

lemma uses_sign : Uses 1 sign :=
  .orElse (.rule _ (uses_word (by decide))) (.rule _ (uses_word (by decide)))

lemma uses_operator : Uses 1 operator := by
  refine .orElse (.rule _ (uses_word (by decide))) <| .orElse (.rule _ (uses_word (by decide))) <|
    .orElse (.rule _ (.token fun {x rest} h => ?_)) <| .orElse (.rule _ (uses_word (by decide))) <|
    .rule _ (uses_word (by decide))
  rcases Option.or_eq_some_iff.mp h with h | ⟨-, h⟩
  · have hstars : 0 < "**".toList.length := by decide
    rw [← List.isPrefixOf?_eq_some_iff_append_eq.mp h, List.length_append]
    omega
  · have hcaret : 0 < "^".toList.length := by decide
    rw [← List.isPrefixOf?_eq_some_iff_append_eq.mp h, List.length_append]
    omega

lemma uses_number : Uses 1 number := .rule _ <| .token fun {x rest} h => by
  rw [Recognizer.number_eq, Option.map_eq_some_iff] at h
  obtain ⟨⟨literal, left⟩, htake, rfl⟩ := h
  obtain ⟨htext, hne⟩ := Token.takeNumber?_eq_some htake
  rw [← htext, List.length_append, Nat.add_comm]
  exact Nat.add_le_add_right (List.length_pos_of_ne_nil hne) _

lemma uses_ident : Uses 1 ident := .rule _ <| .token fun {x rest} h => by
  cases x with
  | nil => cases h
  | cons c cs =>
    rw [Recognizer.ident, Recognizer.andThen, Recognizer.one] at h
    split_ifs at h
    · cases h
      exact Nat.succ_le_succ (List.dropWhile_suffix isNameChar).length_le
    · cases h

section
variable {e : Parser} (he : Uses 1 e)
include he

lemma uses_argument : Uses 1 ((token (.word ",")).seq e) :=
  ((uses_word (by decide)).seq he).mono (by omega)

lemma uses_moreArguments : Uses 1 (moreArguments e) :=
  (Uses.star ((uses_argument he).mono (Nat.zero_le _))).seq (uses_word (by decide))

lemma uses_primary : Uses 1 (primary e) := by
  have hgroup : Uses 1 (group e) :=
    ((uses_word (by decide)).seq (he.seq (uses_word (by decide)))).mono (by omega)
  have hcall : Uses 1 (call e) := .rule _ <|
    (uses_ident.seq ((uses_word (by decide)).seq (he.seq (uses_moreArguments he)))).mono (by omega)
  exact hcall.orElse (uses_number.orElse (uses_ident.orElse hgroup))

lemma uses_signed : Uses 1 (signed e) :=
  (Uses.star (uses_sign.mono (Nat.zero_le _))).seq (uses_primary he)

lemma uses_round : Uses 1 (operator.seq (signed e)) :=
  (uses_operator.seq (uses_signed he)).mono (by omega)

end

lemma uses_expr (depth : ℕ) : Uses 1 (expr depth) := by
  induction depth with
  | zero => rintro x a ps rest b ⟨⟩
  | succ depth ih =>
    exact .rule _ ((uses_signed ih).seq (.star ((uses_round ih).mono (Nat.zero_le _))))

/-- The operators and operands that follow in a row. -/
def rounds (e : Parser) : Parser := many (skip.andThen (operator.seq (signed e)))

/-- What a row gives, but for the blanks at its end. -/
def row (e : Parser) : Parser := (signed e).andThen (rounds e)

section
variable {e : Parser}

lemma row_eq (e : Parser) : row e = (star sign).seq ((primary e).andThen (rounds e)) := by
  rw [row, signed, seq, andThen_assoc, andThen_assoc]
  rfl

lemma exprBody_settled (he : Uses 1 e) (x : List Char) (a : Attempts) :
    settled (exprBody e x a) = settled (row e x a) := by
  refine settled_andThen (fun y b => ?_) (signed e) x a
  rw [skip_andThen]
  exact (many_settled (uses_round he) y b).symm

lemma row_of_sign (h : sign x a = (some (ps, rest), b)) :
    row e x a = after ps (row e (rest.dropWhile isBlank) b) := by
  rw [row_eq]
  exact star_seq_some uses_sign h _

lemma row_of_operand (hx : Settled x) (h : sign x a = (none, b)) :
    row e x a = (primary e).andThen (rounds e) x b := by
  rw [row_eq]
  exact star_seq_none hx h _

lemma row_none (h : row e x a = (none, b)) : signed e x a = (none, b) := by
  rcases hsigned : signed e x a with ⟨_ | ⟨ps, rest⟩, c⟩
  · rwa [row, andThen_none hsigned] at h
  · obtain ⟨found, hsome⟩ := Option.isSome_iff_exists.mp
      (many_isSome (skip.andThen (operator.seq (signed e))) rest c)
    rw [row, andThen_some hsigned, after, rounds, hsome] at h
    cases h

section
variable (hx : Settled x)
include hx

lemma rounds_end (h : operator x a = (none, b)) : rounds e x a = (some ([], x), b) :=
  many_none (by rw [skip_andThen, hx, seq_none h])

/-- An operator without an operand after it is left alone. -/
lemma rounds_of_none {c : Attempts} (h : operator x a = (some (ps, rest), b))
    (hrow : row e (rest.dropWhile isBlank) b = (none, c)) : rounds e x a = (some ([], x), c) :=
  many_none (by rw [skip_andThen, hx, seq_some h, row_none hrow]; rfl)

lemma rounds_of_some (he : Uses 1 e) {c : Attempts} {found : List Pair × List Char}
    (h : operator x a = (some (ps, rest), b))
    (hrow : row e (rest.dropWhile isBlank) b = (some found, c)) :
    rounds e x a = after ps (some found, c) := by
  have huses : Uses 1 (skip.andThen (operator.seq (signed e))) :=
    (Uses.skip.andThen (uses_round he)).mono (by omega)
  rcases hsigned : signed e (rest.dropWhile isBlank) b with ⟨_ | ⟨qs, left⟩, d⟩
  · rw [row, andThen_none hsigned] at hrow
    cases hrow
  · rw [row, andThen_some hsigned] at hrow
    have hround : skip.andThen (operator.seq (signed e)) x a = (some (ps ++ qs, left), d) := by
      rw [skip_andThen, hx, seq_some h, hsigned]
      rfl
    rw [rounds, many_some huses hround, ← after_after, ← hrow]
    rfl

end

end

section
variable {f : Recognizer} (name : Rule)

lemma leaf_some (h : f x = some rest) (a : Attempts) :
    rule name (token f) x a =
      (some ([⟨name, String.ofList (x.take (x.length - rest.length)), []⟩], rest), a) :=
  rule_some name (token_some h a)

lemma leaf_none (h : f x = none) (a : Attempts) :
    rule name (token f) x a = (none, a.fail name x) :=
  rule_none name (token_none h a)

end

/-- What fails at an operand after a sign could have stood there. -/
def operandRules : List Rule := [.neg, .pos, .ident, .number, .ident]

def operatorRules : List Rule := [.add, .sub, .pow, .mul, .div]

lemma sign_minus (h : Starts .minus x rest) :
    ∃ text, sign x a = (some ([⟨.neg, text, []⟩], rest), a) :=
  ⟨_, orElse_some (leaf_some _ (h.word_operator (s := "-") rfl rfl) _) _⟩

lemma sign_plus (h : Starts .plus x rest) :
    ∃ text, sign x a = (some ([⟨.pos, text, []⟩], rest), a.fail .neg x) :=
  ⟨_, (orElse_none (leaf_none _ (h.word_operator (s := "-") rfl rfl) _) _).trans
    (leaf_some _ (h.word_operator (s := "+") rfl rfl) _)⟩

lemma sign_none (hx : Settled x) (hminus : (tokens x).head? ≠ some .minus)
    (hplus : (tokens x).head? ≠ some .plus) (ha : a.Fresh x) :
    sign x a = (none, ⟨x.length, [.neg, .pos]⟩) := by
  have hneg : rule .neg (token (.word "-")) x a = (none, ⟨x.length, [.neg]⟩) := by
    rw [leaf_none _ (hx.word_eq_none (s := "-") rfl rfl hminus) _, ha.fail]
  rw [sign, orElse_none hneg, leaf_none _ (hx.word_eq_none (s := "+") rfl rfl hplus) _,
    Attempts.fail_at]
  rfl

/-- The word of a power fails where no power comes next. -/
lemma word_power_eq_none (hx : Settled x) (h : (tokens x).head? ≠ some .power) :
    (Recognizer.word "**").orElse (.word "^") x = none := by
  obtain rfl | ⟨t, rest, hstarts, hscan⟩ := hx.cases
  · rfl
  · rw [hstarts.word_power, if_neg]
    rintro rfl
    simp [tokens, hscan] at h

lemma word_star_eq_none (hx : Settled x) (hpower : (tokens x).head? ≠ some .power)
    (hstar : (tokens x).head? ≠ some .star) : Recognizer.word "*" x = none := by
  obtain rfl | ⟨t, rest, hstarts, hscan⟩ := hx.cases
  · rfl
  · rw [hstarts.word_star, if_neg]
    all_goals
      rintro rfl
      simp [tokens, hscan] at hpower hstar

/-- All operators are tried where none comes next. -/
lemma operator_none (hx : Settled x) (h : ∀ t ∈ (tokens x).head?, t.joins? = none) (a : Attempts) :
    operator x a =
      (none, ((((a.fail .add x).fail .sub x).fail .pow x).fail .mul x).fail .div x) := by
  have hne {t : Token} (ht : t.joins? ≠ none) : (tokens x).head? ≠ some t := fun hhead =>
    ht (h t hhead)
  have hpower : (tokens x).head? ≠ some .power := hne (by decide)
  rw [operator,
    orElse_none (leaf_none _ (hx.word_eq_none (s := "+") (d := '+') rfl rfl (hne (by decide))) _),
    orElse_none (leaf_none _ (hx.word_eq_none (s := "-") (d := '-') rfl rfl (hne (by decide))) _),
    orElse_none (leaf_none _ (word_power_eq_none hx hpower) _),
    orElse_none (leaf_none _ (word_star_eq_none hx hpower (hne (by decide))) _),
    leaf_none _ (hx.word_eq_none (s := "/") (d := '/') rfl rfl (hne (by decide))) _]

lemma operator_none_of_fresh (hx : Settled x) (h : ∀ t ∈ (tokens x).head?, t.joins? = none)
    (ha : a.Fresh x) : operator x a = (none, ⟨x.length, operatorRules⟩) := by
  rw [operator_none hx h, ha.fail]
  simp [operatorRules]

lemma operator_none_of_past (hx : Settled x) (h : ∀ t ∈ (tokens x).head?, t.joins? = none)
    (ha : a.left < x.length) : operator x a = (none, a) := by
  rw [operator_none hx h]
  simp only [Attempts.fail_of_past ha]

/-- An operator is read by its own rule, after those before it have failed. -/
lemma operator_some {t : Token} {name : Rule} (h : Starts t x rest) (ht : t.joins? = some name)
    (ha : x.length ≤ a.left) : ∃ text b, x.length ≤ b.left ∧
      operator x a = (some ([⟨name, text, []⟩], rest), b) := by
  have hadd (hne : t ≠ .plus) :=
    leaf_none .add ((h.word_operator (s := "+") rfl rfl).trans (if_neg hne)) a
  have hsub (hne : t ≠ .minus) :=
    leaf_none .sub ((h.word_operator (s := "-") rfl rfl).trans (if_neg hne)) (a.fail .add x)
  have hpow (hne : t ≠ .power) :=
    leaf_none .pow (h.word_power.trans (if_neg hne)) ((a.fail .add x).fail .sub x)
  have hmul (hpower : t ≠ .power) (hne : t ≠ .star) :=
    leaf_none .mul ((h.word_star hpower).trans (if_neg hne))
      (((a.fail .add x).fail .sub x).fail .pow x)
  have ha₁ := Attempts.left_fail ha .add
  have ha₂ := Attempts.left_fail ha₁ .sub
  have ha₃ := Attempts.left_fail ha₂ .pow
  have ha₄ := Attempts.left_fail ha₃ .mul
  cases t with
  | plus =>
    cases ht
    exact ⟨_, _, ha, orElse_some (leaf_some _ (h.word_operator (s := "+") rfl rfl) _) _⟩
  | minus =>
    cases ht
    exact ⟨_, _, ha₁, (orElse_none (hadd (by decide)) _).trans <|
      orElse_some (leaf_some _ (h.word_operator (s := "-") rfl rfl) _) _⟩
  | power =>
    cases ht
    exact ⟨_, _, ha₂, (orElse_none (hadd (by decide)) _).trans <|
      (orElse_none (hsub (by decide)) _).trans <| orElse_some (leaf_some _ h.word_power _) _⟩
  | star =>
    cases ht
    exact ⟨_, _, ha₃, (orElse_none (hadd (by decide)) _).trans <|
      (orElse_none (hsub (by decide)) _).trans <| (orElse_none (hpow (by decide)) _).trans <|
      orElse_some (leaf_some _ (h.word_star (by decide)) _) _⟩
  | slash =>
    cases ht
    exact ⟨_, _, ha₄, (orElse_none (hadd (by decide)) _).trans <|
      (orElse_none (hsub (by decide)) _).trans <| (orElse_none (hpow (by decide)) _).trans <|
      (orElse_none (hmul (by decide) (by decide)) _).trans <|
      leaf_some _ (h.word_operator (s := "/") rfl rfl) _⟩
  | number | name | opening | closing | comma | unknown => cases ht

section
variable {e : Parser}

lemma number_none (hx : Settled x) (h : ∀ literal, (tokens x).head? ≠ some (.number literal))
    (a : Attempts) : number x a = (none, a.fail .number x) := by
  refine leaf_none _ ?_ _
  rw [Recognizer.number_eq, Option.map_eq_none_iff]
  obtain rfl | ⟨t, rest, hstarts, hscan⟩ := hx.cases
  · rfl
  · refine hstarts.takeNumber?_eq_none_of_ne fun literal => ?_
    rintro rfl
    simp [tokens, hscan] at h

lemma ident_none (hx : Settled x) (h : ∀ s, (tokens x).head? ≠ some (.name s)) (a : Attempts) :
    ident x a = (none, a.fail .ident x) := by
  refine leaf_none _ ?_ _
  obtain rfl | ⟨t, rest, hstarts, hscan⟩ := hx.cases
  · rfl
  · refine hstarts.ident_eq_none fun s => ?_
    rintro rfl
    simp [tokens, hscan] at h

lemma ident_some {s : String} (h : Starts (.name s) x rest) (a : Attempts) :
    ident x a = (some ([⟨.ident, s, []⟩], rest), a) := by
  obtain ⟨hident, htext⟩ := h.ident_eq_some
  rw [ident, leaf_some _ hident _, htext, List.length_append, Nat.add_sub_cancel, List.take_left,
    String.ofList_toList]

lemma number_some {literal : String} (h : Starts (.number literal) x rest) (a : Attempts) :
    number x a = (some ([⟨.number, literal, []⟩], rest), a) := by
  have htake := h.takeNumber?_eq_some
  have htext := (takeNumber?_eq_some htake).1
  have hnumber : Recognizer.number x = some rest := by
    rw [Recognizer.number_eq, htake, Option.map_some]
  rw [number, leaf_some _ hnumber _, ← htext, List.length_append, Nat.add_sub_cancel,
    List.take_left, String.ofList_toList]

/-- Without a name at the start a call is none, and what is missing is its name. -/
lemma call_none (hx : Settled x) (h : ∀ s, (tokens x).head? ≠ some (.name s)) :
    call e x ⟨x.length, [.neg, .pos]⟩ = (none, ⟨x.length, [.neg, .pos, .ident]⟩) := by
  rw [call, rule_none _ (seq_none (ident_none hx h _) _), Attempts.fail_at, Attempts.note,
    Attempts.count_at, Attempts.count_at]
  rfl

lemma primary_number {literal : String} (hx : Settled x) (h : Starts (.number literal) x rest)
    (ht : (tokens x).head? = some (.number literal)) :
    primary e x ⟨x.length, [.neg, .pos]⟩ =
      (some ([⟨.number, literal, []⟩], rest), ⟨x.length, [.neg, .pos, .ident]⟩) := by
  rw [primary, orElse_none (call_none hx (by simp [ht])), orElse_some (number_some h _)]

/-- A name that is not called. -/
lemma primary_name {s : String} (hx : Settled x) (h : Starts (.name s) x rest)
    (ht : (tokens x).head? = some (.name s)) (hrest : (tokens rest).head? ≠ some .opening) :
    primary e x ⟨x.length, [.neg, .pos]⟩ =
      (some ([⟨.ident, s, []⟩], rest), ⟨x.length, [.neg, .pos, .call, .number]⟩) := by
  have hopening : token (.word "(") (rest.dropWhile isBlank) ⟨x.length, [.neg, .pos]⟩ =
      (none, ⟨x.length, [.neg, .pos]⟩) :=
    token_none ((settled_dropWhile rest).word_eq_none (s := "(") (d := '(') rfl rfl
      (by rwa [tokens_dropWhile])) _
  have hbody : ident.seq ((token (.word "(")).seq (e.seq (moreArguments e))) x
      ⟨x.length, [.neg, .pos]⟩ = (none, ⟨x.length, [.neg, .pos]⟩) := by
    rw [seq_some (ident_some h _), seq_none hopening]
    rfl
  have hcall : call e x ⟨x.length, [.neg, .pos]⟩ = (none, ⟨x.length, [.neg, .pos, .call]⟩) := by
    rw [call, rule_none _ hbody, Attempts.note, Attempts.count_at, if_neg (by simp), if_pos rfl]
    rfl
  rw [primary, orElse_none hcall, orElse_none (number_none hx (by simp [ht]) _),
    orElse_some (ident_some h _), Attempts.fail_at]
  rfl

section
variable {s : String} {y left : List Char} (h : Starts (.name s) x rest)
  (hopening : Starts .opening (rest.dropWhile isBlank) y)
include h hopening

/-- What is read of a call after the opening parenthesis. -/
lemma call_body (a : Attempts) :
    ident.seq ((token (.word "(")).seq (e.seq (moreArguments e))) x a =
      after [⟨.ident, s, []⟩] (e.seq (moreArguments e) (y.dropWhile isBlank) a) := by
  have hword := token_some ((hopening.word_operator (s := "(") rfl rfl).trans (if_pos rfl)) a
  rw [seq_some (ident_some h _), seq_some hword, after_nil]

lemma primary_call
    (hargs : e.seq (moreArguments e) (y.dropWhile isBlank) a = (some (ps, left), b)) :
    ∃ text, primary e x a = (some ([⟨.call, text, ⟨.ident, s, []⟩ :: ps⟩], left), b) :=
  ⟨_, orElse_some (rule_some _ (by rw [call_body h hopening, hargs]; rfl)) _⟩

/-- Without all its arguments a call is only read as its name. -/
lemma primary_call_name (hx : Settled x) (ht : (tokens x).head? = some (.name s))
    (hargs : e.seq (moreArguments e) (y.dropWhile isBlank) a = (none, b))
    (hb : b.left < x.length) : primary e x a = (some ([⟨.ident, s, []⟩], rest), b) := by
  have hbody : ident.seq ((token (.word "(")).seq (e.seq (moreArguments e))) x a = (none, b) := by
    rw [call_body h hopening, hargs]
    rfl
  have hcall : call e x a = (none, b) := by
    rw [call, rule_none _ hbody, Attempts.note_of_past hb]
  rw [primary, orElse_none hcall, orElse_none (number_none hx (by simp [ht]) _),
    Attempts.fail_of_past hb, orElse_some (ident_some h _)]

end

section
variable (hx : Settled x) (hnumber : ∀ literal, (tokens x).head? ≠ some (.number literal))
  (hname : ∀ s, (tokens x).head? ≠ some (.name s))
include hx hnumber hname

/-- A group is tried last. -/
lemma primary_eq_group :
    primary e x ⟨x.length, [.neg, .pos]⟩ = group e x ⟨x.length, operandRules⟩ := by
  rw [primary, orElse_none (call_none hx hname), orElse_none (number_none hx hnumber _),
    orElse_none (ident_none hx hname _), Attempts.fail_at, Attempts.fail_at]
  rfl

lemma primary_none (hopening : (tokens x).head? ≠ some .opening) :
    primary e x ⟨x.length, [.neg, .pos]⟩ = (none, ⟨x.length, operandRules⟩) := by
  rw [primary_eq_group hx hnumber hname, group,
    seq_none (token_none (hx.word_eq_none (s := "(") rfl rfl hopening) _)]

end

lemma primary_group {y : List Char} (hx : Settled x) (h : Starts .opening x y)
    (ht : (tokens x).head? = some .opening) :
    primary e x ⟨x.length, [.neg, .pos]⟩ =
      e.seq (token (.word ")")) (y.dropWhile isBlank) ⟨x.length, operandRules⟩ := by
  have hword := token_some (a := ⟨x.length, operandRules⟩)
    ((h.word_operator (s := "(") rfl rfl).trans (if_pos rfl))
  rw [primary_eq_group hx (by simp [ht]) (by simp [ht]), group, seq_some hword, after_nil]

end

section
variable {e : Parser}

/-- The closing parenthesis or a comma is missing, and it is not noted. -/
lemma moreArguments_none (hx : Settled x) (hclosing : (tokens x).head? ≠ some .closing)
    (hcomma : (tokens x).head? ≠ some .comma) (a : Attempts) :
    moreArguments e x a = (none, a) := by
  have hargument : (token (.word ",")).seq e x a = (none, a) :=
    seq_none (token_none (hx.word_eq_none (s := ",") rfl rfl hcomma) a) e
  rw [moreArguments, star_seq_none hx hargument,
    token_none (hx.word_eq_none (s := ")") rfl rfl hclosing)]

lemma moreArguments_closing (hx : Settled x) (h : Starts .closing x rest) (a : Attempts) :
    moreArguments e x a = (some ([], rest), a) := by
  have hargument : (token (.word ",")).seq e x a = (none, a) :=
    seq_none (token_none ((h.word_operator (s := ",") rfl rfl).trans (if_neg (by simp))) a) e
  rw [moreArguments, star_seq_none hx hargument,
    token_some ((h.word_operator (s := ")") rfl rfl).trans (if_pos rfl))]

/-- After a comma comes an argument and then what comes after an argument. Without an argument the
comma is left for the closing parenthesis. -/
lemma moreArguments_comma (he : Uses 1 e) (hx : Settled x) (h : Starts .comma x rest)
    (a : Attempts) :
    moreArguments e x a = e.seq (moreArguments e) (rest.dropWhile isBlank) a := by
  have hargument : (token (.word ",")).seq e x a = e (rest.dropWhile isBlank) a := by
    have hcomma : Recognizer.word "," x = some rest :=
      (h.word_operator (s := ",") rfl rfl).trans (if_pos rfl)
    rw [seq_some (token_some hcomma a), after_nil]
  rcases harg : e (rest.dropWhile isBlank) a with ⟨_ | ⟨ps, left⟩, b⟩
  · rw [seq_none harg, moreArguments, star_seq_none hx (hargument.trans harg),
      token_none ((h.word_operator (s := ")") rfl rfl).trans (if_neg (by simp)))]
  · rw [seq_some harg]
    exact star_seq_some (uses_argument he) (hargument.trans harg) _

end

end Parser

end EquationCompiler
