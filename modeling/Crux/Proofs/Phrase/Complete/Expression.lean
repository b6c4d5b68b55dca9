import Crux.Proofs.Phrase.Expression
import Crux.Proofs.Phrase.Reading

namespace Crux

open Parse

namespace Form

def opening : Form → Expected
  | .designator => Kind.identifier
  | .call => Kind.call
  | .further => Kind.comma
  | _ => Nonterminal.expression0

def extenders : Form → List Kind
  | .call => []
  | .operand | .designator => [.openBracket]
  | .product => .openBracket :: Nonterminal.op2.first
  | .sum => .openBracket :: (Nonterminal.op2.first ++ Nonterminal.op1.first)
  | .comparison =>
    .openBracket :: (Nonterminal.op2.first ++ Nonterminal.op1.first ++ Nonterminal.op0.first)
  | .further =>
    .comma :: .openBracket ::
      (Nonterminal.op2.first ++ Nonterminal.op1.first ++ Nonterminal.op0.first)
  | .arguments =>
    .comma :: .openBracket ::
      (Nonterminal.op2.first ++ Nonterminal.op1.first ++ Nonterminal.op0.first ++
        Nonterminal.expression0.first)

def ends (f : Form) (k : Kind) : Bool := k ∉ f.extenders

end Form

namespace Phrase

-- The lemmas below unfold the tokens and the tree of each kind of phrase.
attribute [local simp] tokens build

theorem opens {f : Form} (ph : Phrase f) :
    (f = .arguments ∨ f = .further) ∧ ph.tokens = [] ∨ Opens f.opening ph.tokens := by
  induction ph with
  | literal t => exact .inr (.mono ⟨t, [], rfl⟩ (by decide))
  | not mark inner => exact .inr (.mono ⟨mark, _, rfl⟩ (by decide))
  | group left inner right => exact .inr (.mono ⟨left, _, rfl⟩ (by decide))
  | value address ih | result c ih => exact .inr ((ih.resolve_left (by simp)).mono (by decide))
  | name ident => exact .inr ⟨ident, [], rfl⟩
  | element base left amount right ih => exact .inr ((ih.resolve_left (by simp)).append _)
  | call mark ident left args right => exact .inr ⟨mark, _, rfl⟩
  | noArguments | noFurther => exact .inl ⟨by simp, rfl⟩
  | arguments first rest ih => exact .inr ((ih.resolve_left (by simp)).append _)
  | further comma next rest => exact .inr ⟨comma, _, rfl⟩
  | factor e ih | term e ih | plain e ih => exact .inr (ih.resolve_left (by simp))
  | product left op right ih | sum left op right ih | comparison left op right ih =>
    exact .inr ((ih.resolve_left (by simp)).append _)

def BuiltBy {f : Form} (ph : Phrase f) (x : Parse f.Result) (fine : Kind → Bool) : Prop :=
  x.Makes ph.tokens (fun _ => ph.build) fine

end Phrase

namespace Parse

section Operand

variable {atom : Parse Node} {fine : Kind → Bool}

theorem operand_not (mark : TokenOf Kind.kwNot) {inner : Phrase .operand}
    (h : inner.BuiltBy atom fine) : (Phrase.not mark inner).BuiltBy (operand atom) fine := by
  intro d t rest ht
  rw [operand, Phrase.tokens, List.cons_append, bind_done (position_reading _ _),
    bind_done (accept_reading mark (by simp)), if_pos rfl, bind_done (h _ _ _ ht)]
  rfl

theorem operand_group (left : TokenOf Kind.openParen) {inner : Phrase .comparison}
    (right : TokenOf Kind.closeParen) (h : inner.BuiltBy (comparison atom) Form.comparison.ends)
    (fine : Kind → Bool) :
    (Phrase.group left inner right).BuiltBy (operand atom) fine := by
  intro d t rest ht
  have hl : left.val.kind ≠ .kwNot := by simp [left.kind_eq]
  have hr : Form.comparison.ends right.val.kind := by rw [right.kind_eq]; rfl
  rw [operand, Phrase.tokens, List.cons_append, bind_done (position_reading _ _),
    bind_done (accept_reading_other hl _), if_neg (by decide),
    bind_done (accept_reading left (by simp)), if_pos rfl, List.append_assoc, List.cons_append,
    bind_done (h _ _ _ hr), List.nil_append, bind_done (expect_reading right (by simp))]
  rfl

theorem operand_of_kind {d : Draft} {t : Token} {ts : List Token} (h₁ : t.kind ≠ .kwNot)
    (h₂ : t.kind ≠ .openParen) :
    operand atom (d.reading (t :: ts)) =
      (do
        if Expected.admits Nonterminal.designator t.kind then
          let address ← designatorOf (comparison atom)
          node t.pos (.dereference · address)
        else if Expected.admits Nonterminal.callExpression t.kind then callOf (comparison atom)
        else if Expected.admits Nonterminal.literal t.kind then literal
        else fail Nonterminal.expression3) (d.reading (t :: ts)) := by
  rw [operand, bind_done (position_reading _ _), bind_done (accept_reading_other h₁ _),
    if_neg (by decide), bind_done (accept_reading_other h₂ _), if_neg (by decide),
    bind_done (sees_reading _ _ _)]
  split
  · rfl
  · rw [bind_done (sees_reading _ _ _)]
    split
    · rfl
    · rw [bind_done (sees_reading _ _ _)]

theorem operand_value {address : Phrase .designator}
    (h : address.BuiltBy (designatorOf (comparison atom)) fine) :
    (Phrase.value address).BuiltBy (operand atom) fine := by
  intro d t rest ht
  obtain ⟨ident, ts, e⟩ := address.opens.resolve_left (by simp)
  have h := h d t rest ht
  simp only [Phrase.tokens, Phrase.build, e, List.cons_append] at h ⊢
  have hk : ident.val.kind = .identifier := ident.kind_eq
  rw [operand_of_kind (by simp [hk]) (by simp [hk]), hk, if_pos (by decide), bind_done h]
  rfl

theorem operand_result {c : Phrase .call} (h : c.BuiltBy (callOf (comparison atom)) fine) :
    (Phrase.result c).BuiltBy (operand atom) fine := by
  intro d t rest ht
  obtain ⟨mark, ts, e⟩ := c.opens.resolve_left (by simp)
  have h := h d t rest ht
  simp only [Phrase.tokens, Phrase.build, e, List.cons_append] at h ⊢
  have hk : mark.val.kind = .call := mark.kind_eq
  rw [operand_of_kind (by simp [hk]) (by simp [hk]), hk, if_neg (by decide), if_pos (by decide), h]

theorem operand_literal (t : TokenOf Nonterminal.literal) :
    (Phrase.literal t).BuiltBy (operand atom) fine := by
  intro d u rest _
  have other : ∀ k, Expected.admits Nonterminal.literal k →
      k ≠ .kwNot ∧ k ≠ .openParen ∧ ¬ Expected.admits Nonterminal.designator k ∧
        ¬ Expected.admits Nonterminal.callExpression k := by
    decide
  obtain ⟨h₁, h₂, h₃, h₄⟩ := other _ t.property
  rw [Phrase.tokens, List.cons_append, List.nil_append, operand_of_kind h₁ h₂, if_neg h₃, if_neg h₄,
    if_pos t.property, literal, bind_done (expect_reading t (by simp))]
  rfl

end Operand

section Designator

variable {expression : Parse Node}

theorem designatorOf_name (ident : TokenOf Kind.identifier) :
    (designatorOf expression).Leads (Phrase.name ident).tokens (Phrase.name ident).build
      Kind.openBracket (element expression) Form.call.ends := by
  refine Makes.leads (x := place) ?_
  intro d t rest _
  rw [place, Phrase.tokens, List.cons_append, bind_done (expect_reading ident (by simp))]
  rfl

theorem designatorOf_element {base : Phrase .designator} (left : TokenOf Kind.openBracket)
    {amount : Phrase .comparison} (right : TokenOf Kind.closeBracket)
    (hb : (designatorOf expression).Leads base.tokens base.build Kind.openBracket
      (element expression) Form.call.ends)
    (ha : amount.BuiltBy expression Form.comparison.ends) :
    (designatorOf expression).Leads (Phrase.element base left amount right).tokens
      (Phrase.element base left amount right).build Kind.openBracket (element expression)
      Form.call.ends := by
  have hs (b : Node) : (element expression b).Makes (left.val :: (amount.tokens ++ [right.val]))
      (fun _ d => (amount.build d).2.node (startOf amount.tokens right.val.pos)
        (.index · b (amount.build d).1)) Form.call.ends := by
    intro d t rest _
    obtain ⟨u, ts, e⟩ := amount.opens.resolve_left (by simp)
    have hr : Form.comparison.ends right.val.kind := by rw [right.kind_eq]; rfl
    have ha := ha d right.val (t :: rest) hr
    simp only [e, List.cons_append, List.append_assoc, List.nil_append] at ha ⊢
    rw [element, bind_done (expect_reading left (by simp)), bind_done (position_reading _ _),
      bind_done ha, bind_done (expect_reading right (by simp))]
    rfl
  exact hb.extend left.property rfl hs

theorem ends_of_further (rest : Phrase .further) :
    ∀ k, Form.further.ends k → Form.comparison.ends (kindOf rest.tokens k) := by
  intro k hk
  obtain ⟨-, e⟩ | ⟨comma, ts, e⟩ := rest.opens
  · rw [e]
    revert k
    decide
  · rw [e, kindOf, comma.kind_eq]
    rfl

theorem commaList_arguments {first : Phrase .comparison} {rest : Phrase .further}
    (hf : first.BuiltBy expression Form.comparison.ends)
    (hr : ∀ n, rest.tokens.length ≤ n →
      rest.BuiltBy (manyUpTo Kind.comma (do let _ ← expect Kind.comma; expression) n)
        Form.further.ends) :
    (Phrase.arguments first rest).BuiltBy (commaList Nonterminal.expression0 expression)
      Form.arguments.ends := by
  have ends : ∀ k, Form.arguments.ends k → Form.further.ends k := by decide
  have hm := many_makes hr
  exact commaList_some (first.opens.resolve_left (by simp))
    (fun k hk => ends_of_further rest k (ends k hk)) hf
    fun d t later ht => hm d t later (ends _ ht)

theorem callOf_call (mark : TokenOf Kind.call) (ident : TokenOf Kind.identifier)
    (left : TokenOf Kind.openParen) {args : Phrase .arguments} (right : TokenOf Kind.closeParen)
    (h : args.BuiltBy (commaList Nonterminal.expression0 expression) Form.arguments.ends) :
    (Phrase.call mark ident left args right).BuiltBy (callOf expression) Form.call.ends := by
  have hargs : (Parse.arguments expression).Makes args.tokens
      (fun after d =>
        (args.build d).2.node (startOf args.tokens after) (.list · .expressions (args.build d).1))
      Form.arguments.ends := by
    intro d t rest ht
    rw [Parse.arguments, bind_done (position_start _ _ _ _), bind_done (h _ _ _ ht)]
    rfl
  intro d t rest _
  have hr : Form.arguments.ends right.val.kind := by rw [right.kind_eq]; rfl
  simp only [Phrase.tokens, List.cons_append, List.append_assoc, List.nil_append]
  rw [callOf, bind_done (expect_reading mark (by simp)),
    bind_done (expect_reading ident (by simp)), resolve, bind_done (make_reading _ _), symbol,
    bind_done (make_reading _ _), bind_done (expect_reading left (by simp)),
    bind_done (hargs _ _ _ hr), bind_done (expect_reading right (by simp))]
  rfl

end Designator

section Levels

variable {level : Nonterminal} {operand x : Parse Node} {fine : Kind → Bool}

theorem operation_makes (op : TokenOf level) {ts : List Token} {f : Draft → Node × Draft}
    (left : Node) (h : operand.Makes ts (fun _ => f) fine) :
    (operation level operand left).Makes (op.val :: ts)
      (fun _ d => Phrase.operation op left (f d)) fine := by
  intro d t rest ht
  rw [operation, List.cons_append, bind_done (expect_reading op (by simp)), bind_done (h _ _ _ ht)]
  rfl

theorem comparison_plain {atom : Parse Node} {e : Phrase .sum}
    (h : e.BuiltBy (sum atom) Form.sum.ends) :
    (Phrase.plain e).BuiltBy (comparison atom) Form.comparison.ends := by
  intro d t rest ht
  have ends : ∀ k, Form.comparison.ends k →
      Form.sum.ends k ∧ ¬ Expected.admits Nonterminal.op0 k := by
    decide
  rw [comparison, Phrase.tokens, bind_done (h _ _ _ (ends _ ht).1), bind_done (sees_reading _ _ _),
    if_neg (ends _ ht).2]
  rfl

theorem comparison_both {atom : Parse Node} {left right : Phrase .sum}
    (op : TokenOf Nonterminal.op0) (hl : left.BuiltBy (sum atom) Form.sum.ends)
    (hr : right.BuiltBy (sum atom) Form.sum.ends) :
    (Phrase.comparison left op right).BuiltBy (comparison atom) Form.comparison.ends := by
  intro d t rest ht
  have ends : ∀ k, Form.comparison.ends k → Form.sum.ends k := by decide
  have before : ∀ k, Expected.admits Nonterminal.op0 k → Form.sum.ends k := by decide
  have hright := operation_makes op (left.build d).1 hr
  rw [comparison, Phrase.tokens, List.append_assoc, List.cons_append,
    bind_done (hl _ _ _ (before _ op.property)), bind_done (sees_reading _ _ _), op.property,
    if_pos rfl, ← List.cons_append, hright _ _ _ (ends _ ht)]
  rfl

end Levels

end Parse

namespace Phrase

/-- The form's parser builds the phrase from its tokens. Where operators or indices can follow, it
makes the phrase for them to extend. -/
def Complete : {f : Form} → Phrase f → Prop
  | .operand, ph => ∀ n, ph.tokens.length ≤ n → ph.BuiltBy (operandAt n) Form.operand.ends
  | .product, ph => ∀ n, ph.tokens.length ≤ n →
    (Parse.product (operandAt n)).Leads ph.tokens ph.build Nonterminal.op2
      (Parse.operation .op2 (operandAt n)) Form.operand.ends
  | .sum, ph => ∀ n, ph.tokens.length ≤ n →
    (Parse.sum (operandAt n)).Leads ph.tokens ph.build Nonterminal.op1
      (Parse.operation .op1 (Parse.product (operandAt n))) Form.product.ends
  | .comparison, ph => ∀ n, ph.tokens.length ≤ n →
    ph.BuiltBy (Parse.comparison (operandAt n)) Form.comparison.ends
  | .designator, ph => ∀ n, ph.tokens.length ≤ n + 1 →
    (designatorOf (Parse.comparison (operandAt n))).Leads ph.tokens ph.build Kind.openBracket
      (Parse.element (Parse.comparison (operandAt n))) Form.call.ends
  | .call, ph => ∀ n, ph.tokens.length ≤ n + 1 →
    ph.BuiltBy (callOf (Parse.comparison (operandAt n))) Form.call.ends
  | .arguments, ph => ∀ n, ph.tokens.length ≤ n →
    ph.BuiltBy (commaList Nonterminal.expression0 (Parse.comparison (operandAt n)))
      Form.arguments.ends
  | .further, ph => ∀ n m, ph.tokens.length ≤ n → ph.tokens.length ≤ m →
    ph.BuiltBy
      (manyUpTo Kind.comma (do let _ ← expect Kind.comma; Parse.comparison (operandAt n)) m)
      Form.further.ends

theorem Complete.product {ph : Phrase .product} (h : ph.Complete) {n : Nat}
    (hn : ph.tokens.length ≤ n) : ph.BuiltBy (Parse.product (operandAt n)) Form.product.ends :=
  (h n hn).makes (by decide)

theorem Complete.sum {ph : Phrase .sum} (h : ph.Complete) {n : Nat} (hn : ph.tokens.length ≤ n) :
    ph.BuiltBy (Parse.sum (operandAt n)) Form.sum.ends :=
  (h n hn).makes (by decide)

theorem Complete.designator {ph : Phrase .designator} (h : ph.Complete) {n : Nat}
    (hn : ph.tokens.length ≤ n + 1) :
    ph.BuiltBy (designatorOf (Parse.comparison (operandAt n))) Form.designator.ends :=
  (h n hn).makes (by decide)

theorem complete {f : Form} (ph : Phrase f) : ph.Complete := by
  induction ph with
  | literal t =>
    intro n hn
    obtain ⟨n, rfl⟩ : ∃ m, n = m + 1 := ⟨n - 1, by simp [tokens] at hn; omega⟩
    exact operand_literal t
  | not mark inner ih =>
    intro n hn
    obtain ⟨n, rfl⟩ : ∃ m, n = m + 1 := ⟨n - 1, by simp [tokens] at hn; omega⟩
    exact operand_not mark (ih n (by simpa [tokens] using hn))
  | group left inner right ih =>
    intro n hn
    obtain ⟨n, rfl⟩ : ∃ m, n = m + 1 := ⟨n - 1, by simp [tokens] at hn; omega⟩
    exact operand_group left right (ih n (by simp [tokens] at hn; omega)) _
  | value address ih =>
    intro n hn
    obtain ⟨ident, ts, e⟩ := address.opens.resolve_left (by simp)
    obtain ⟨n, rfl⟩ : ∃ m, n = m + 1 := ⟨n - 1, by simp [tokens, e] at hn; omega⟩
    exact operand_value (ih.designator hn)
  | result c ih =>
    intro n hn
    obtain ⟨mark, ts, e⟩ := c.opens.resolve_left (by simp)
    obtain ⟨n, rfl⟩ : ∃ m, n = m + 1 := ⟨n - 1, by simp [tokens, e] at hn; omega⟩
    exact operand_result fun d t rest _ => ih n hn d t rest (by rfl)
  | name ident => exact fun n _ => designatorOf_name ident
  | element base left amount right ihb iha =>
    intro n hn
    simp only [tokens, List.length_append, List.length_cons, List.length_nil] at hn
    exact designatorOf_element left right (ihb n (by omega)) (iha n (by omega))
  | call mark ident left args right ih =>
    intro n hn
    simp only [tokens, List.length_append, List.length_cons, List.length_nil] at hn
    exact callOf_call mark ident left right (ih n (by omega))
  | noArguments => exact fun n _ => commaList_none (by decide)
  | arguments first rest ihf ihr =>
    intro n hn
    simp only [tokens, List.length_append] at hn
    exact commaList_arguments (ihf n (by omega)) fun m hm => ihr n m (by omega) hm
  | noFurther => exact fun n m _ _ => manyUpTo_none m (by decide)
  | further comma next rest ihn ihr =>
    intro n m hn hm
    simp only [tokens, List.length_append, List.length_cons] at hn hm
    obtain ⟨m, rfl⟩ : ∃ l, m = l + 1 := ⟨m - 1, by omega⟩
    exact manyUpTo_next ⟨comma, _, rfl⟩ (ends_of_further rest)
      (comma_item comma (ihn n (by omega))) (ihr n m (by omega) (by omega))
  | factor e ih => exact fun n hn => (ih n hn).leads
  | product left op right ihl ihr =>
    intro n hn
    simp only [tokens, List.length_append, List.length_cons] at hn
    have before : ∀ k, Expected.admits Nonterminal.op2 k → Form.operand.ends k := by decide
    exact (ihl n (by omega)).extend op.property (before _ op.property)
      fun a => operation_makes op a (ihr n (by omega))
  | term e ih => exact fun n hn => (ih.product hn).leads
  | sum left op right ihl ihr =>
    intro n hn
    simp only [tokens, List.length_append, List.length_cons] at hn
    have before : ∀ k, Expected.admits Nonterminal.op1 k → Form.product.ends k := by decide
    exact (ihl n (by omega)).extend op.property (before _ op.property)
      fun a => operation_makes op a (ihr.product (by omega))
  | plain e ih => exact fun n hn => comparison_plain (ih.sum hn)
  | comparison left op right ihl ihr =>
    intro n hn
    simp only [tokens, List.length_append, List.length_cons] at hn
    exact comparison_both op (ihl.sum (by omega)) (ihr.sum (by omega))

end Phrase

namespace Parse

theorem expression_complete (ph : Phrase .comparison) :
    ph.BuiltBy Parse.expression Form.comparison.ends := by
  intro d t rest ht
  refine ph.complete _ ?_ d t rest ht
  simp only [Draft.reading, List.length_tail, List.length_append, List.length_cons]
  omega

theorem designator_leads : (ph : Phrase .designator) →
    Parse.designator.Leads ph.tokens ph.build Kind.openBracket (element Parse.expression)
      Form.call.ends
  | .name ident => designatorOf_name ident
  | .element base left amount right =>
    designatorOf_element left right (designator_leads base) (expression_complete amount)

theorem designator_complete (ph : Phrase .designator) :
    ph.BuiltBy Parse.designator Form.designator.ends :=
  (designator_leads ph).makes (by decide)

theorem further_complete : (ph : Phrase .further) → (n : Nat) → ph.tokens.length ≤ n →
    ph.BuiltBy (manyUpTo Kind.comma (do let _ ← expect Kind.comma; Parse.expression) n)
      Form.further.ends
  | .noFurther, n, _ => manyUpTo_none n (by decide)
  | .further comma next rest, n + 1, h => by
    simp only [Phrase.tokens, List.length_append, List.length_cons] at h
    exact manyUpTo_next ⟨comma, _, rfl⟩ (ends_of_further rest)
      (comma_item comma (expression_complete next)) (further_complete rest n (by omega))

theorem arguments_complete : (ph : Phrase .arguments) →
    ph.BuiltBy (commaList Nonterminal.expression0 Parse.expression) Form.arguments.ends
  | .noArguments => commaList_none (by decide)
  | .arguments first rest =>
    commaList_arguments (expression_complete first) (further_complete rest)

theorem callExpression_complete : (ph : Phrase .call) →
    ph.BuiltBy Parse.callExpression Form.call.ends
  | .call mark ident left args right => callOf_call mark ident left right (arguments_complete args)

end Parse

end Crux
