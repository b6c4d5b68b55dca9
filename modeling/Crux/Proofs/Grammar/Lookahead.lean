import Crux.Proofs.Grammar.Reads

/-! One token of lookahead. Two streams that agree up to some token are read alike until that token
is passed, whatever stands behind it: no step sees more than the current token, and the number of
tokens left only bounds how often a step may repeat itself or be nested. -/

namespace Crux

variable {α β : Type} {k k' m m' n n' : Nat} {t : Token} {rest rest' ts : List Token}

/-- Two parsers that have made the same and have the tokens `ts` and `t` in common. Neither stream
ends with them. -/
structure Parser.Alike (t : Token) (rest rest' ts : List Token) (p p' : Parser) : Prop where
  draft : p.toDraft = p'.toDraft
  left : p.tokens = ts ++ t :: rest
  right : p'.tokens = ts ++ t :: rest'
  more : rest ≠ []
  more' : rest' ≠ []

namespace Parser

variable {p p' : Parser}

theorem Alike.current_eq (h : Alike t rest rest' ts p p') : p.current = p'.current := by
  have e : p.tokens.head? = p'.tokens.head? := by
    rw [h.left, h.right]
    cases ts <;> rfl
  simpa [tokens] using e

theorem Alike.length_left (h : Alike t rest rest' ts p p') :
    p.later.length + 1 = ts.length + 1 + rest.length := by
  have := congrArg List.length h.left
  simp only [tokens, List.length_cons, List.length_append] at this
  omega

theorem Alike.length_right (h : Alike t rest rest' ts p p') :
    p'.later.length + 1 = ts.length + 1 + rest'.length := by
  have := congrArg List.length h.right
  simp only [tokens, List.length_cons, List.length_append] at this
  omega

theorem Alike.remade {d d' : Draft} (h : Alike t rest rest' ts p p') (hd : d = d') :
    Alike t rest rest' ts { p with toDraft := d } { p' with toDraft := d' } :=
  ⟨hd, h.left, h.right, h.more, h.more'⟩

theorem tokens_advance {p : Parser} {u : Token} {us : List Token} (h : p.tokens = u :: us)
    (hus : us ≠ []) : p.advance.tokens = us := by
  obtain ⟨-, rfl⟩ := List.cons.inj h
  unfold advance
  split
  · rename_i hl
    exact absurd hl hus
  · rename_i hl
    exact hl.symm

theorem length_tokens_advance_le (p : Parser) : p.advance.tokens.length ≤ p.tokens.length := by
  unfold advance
  split
  · exact Nat.le_refl _
  · rename_i hl
    simp [tokens, hl]

theorem toDraft_advance (p : Parser) : p.advance.toDraft = p.toDraft := by
  unfold advance
  split <;> rfl

end Parser

namespace Parsed

def last : Parsed α → Parser
  | .done _ p | .stuck _ p => p

/-- Two steps from parsers alike, with `n` tokens in front of `t`, end alike, unless the first one
has passed `t`. A finished step has taken `k` tokens at least. -/
inductive Alike (k n : Nat) (t : Token) (rest rest' : List Token) : Parsed α → Parsed α → Prop
  | done : Parser.Alike t rest rest' us p p' → us.length + k ≤ n →
      Alike k n t rest rest' (.done a p) (.done a p')
  | stuck : Parser.Alike t rest rest' us p p' →
      Alike k n t rest rest' (.stuck pos p) (.stuck pos p')
  | passed : z.last.tokens.length ≤ rest.length → Alike k n t rest rest' z z'

theorem Alike.mono {z z' : Parsed α} (h : Alike k n t rest rest' z z') (hn : n + k' ≤ n' + k) :
    Alike k' n' t rest rest' z z' := by
  cases h with
  | done hp hk => exact .done hp (by omega)
  | stuck hp => exact .stuck hp
  | passed hz => exact .passed hz

end Parsed

namespace Parse

/-- Run on streams alike, with fewer than `m` tokens in front of the last common one, the two steps
end alike. The first one never gives tokens back. -/
class Local (k m : Nat) (x x' : Parse α) : Prop where
  forward : ∀ p, (x p).last.tokens.length ≤ p.tokens.length
  alike : ∀ {t rest rest' ts p p'}, Parser.Alike t rest rest' ts p p' → ts.length < m →
    Parsed.Alike k ts.length t rest rest' (x p) (x' p')

namespace Local

theorem mono {x x' : Parse α} (h : Local k m x x') (hk : k' ≤ k) (hm : m' ≤ m) :
    Local k' m' x x' where
  forward := h.forward
  alike hp hts := (h.alike hp (Nat.lt_of_lt_of_le hts hm)).mono (by omega)

theorem zero {x y : Parse α} (h : Local k m x y) (x' : Parse α) : Local k' 0 x x' where
  forward := h.forward
  alike _ hts := absurd hts (Nat.not_lt_zero _)

theorem bind {x x' : Parse α} {f f' : α → Parse β} (hx : Local k m x x')
    (hf : ∀ a, Local k' (m - k) (f a) (f' a)) : Local (k + k') m (x >>= f) (x' >>= f') where
  forward p := by
    have h := hx.forward p
    rw [bind_run]
    cases hr : x p with
    | done a q =>
      rw [hr] at h
      exact Nat.le_trans ((hf a).forward q) h
    | stuck pos q =>
      rw [hr] at h
      exact h
  alike {t rest rest' ts p p'} hp hts := by
    have h := hx.alike hp hts
    rw [bind_run, bind_run]
    generalize x p = z at h
    generalize x' p' = z' at h
    cases h with
    | done hq hk => exact ((hf _).alike hq (by omega)).mono (by omega)
    | stuck hq => exact .stuck hq
    | passed hz =>
      cases z with
      | done a q => exact .passed (Nat.le_trans ((hf a).forward q) hz)
      | stuck pos q => exact .passed hz

theorem of_look {x : Parse α} (f : Draft → Token → α × Draft)
    (h : ∀ p, x p = .done (f p.toDraft p.current).1 { p with toDraft := (f p.toDraft p.current).2 }) :
    Local 0 m x x where
  forward p := by
    rw [h]
    exact Nat.le_refl _
  alike {t rest rest' ts p p'} hp _ := by
    have e : f p'.toDraft p'.current = f p.toDraft p.current := by rw [hp.draft, hp.current_eq]
    rw [h p, h p', e]
    exact .done (hp.remade rfl) (Nat.le_refl _)

/-- The tokens left are more than the common ones, so as a bound they are as good as any. -/
theorem of_fuel (F F' : Nat → Parse α)
    (h : ∀ i ≤ m, ∀ j j', Local k i (F (i + j)) (F' (i + j'))) :
    Local k m (fun p => F (p.later.length + 1) p) (fun p => F' (p.later.length + 1) p) where
  forward p := by
    have := (h 0 (Nat.zero_le m) (p.later.length + 1) 0).forward p
    rwa [Nat.zero_add] at this
  alike {t rest rest' ts p p'} hp hts := by
    have := (h (ts.length + 1) hts rest.length rest'.length).alike hp (Nat.lt_succ_self _)
    rwa [← hp.length_left, ← hp.length_right] at this

instance (priority := low) weaken (x x' : Parse α) [h : Local 1 m x x'] : Local 0 m x x' :=
  h.mono (Nat.zero_le _) (Nat.le_refl _)

instance (f : Draft → α × Draft) : Local 0 m (make f) (make f) := of_look (fun d _ => f d) fun _ => rfl

instance (a : α) : Local 0 m (pure a) (pure a) := of_look (fun d _ => (a, d)) fun _ => rfl

instance : Local 0 m position position := of_look (fun d t => (t.pos, d)) fun _ => rfl

instance (e : Expected) : Local 0 m (sees e) (sees e) :=
  of_look (fun d t => (e.admits t.kind, d)) fun _ => rfl

instance (pos : Position) (build : Tag → Node) : Local 0 m (node pos build) (node pos build) :=
  of_look (fun d _ => d.node pos build) fun _ => rfl

instance (ident : Token) : Local 0 m (declare ident) (declare ident) :=
  of_look (fun d _ => d.declare ident) fun _ => rfl

instance (ident : Token) : Local 0 m (resolve ident) (resolve ident) :=
  of_look (fun d _ => d.resolve ident) fun _ => rfl

instance (b : Binding) (ty : Ty) : Local 0 m (setType b ty) (setType b ty) :=
  of_look (fun d _ => ((), d.setType b ty)) fun _ => rfl

instance (b : Binding) : Local 0 m (symbol b) (symbol b) :=
  of_look (fun d _ => (d.symbol b, d)) fun _ => rfl

instance (e : Expected) : Local k m (fail e : Parse α) (fail e) where
  forward p := Nat.le_refl _
  alike {t rest rest' ts p p'} hp _ := by
    have hpos : p'.current.pos = p.current.pos := by rw [hp.current_eq]
    simp only [fail, hpos]
    exact .stuck (hp.remade (by rw [hp.draft, hp.current_eq]))

instance (e : Expected) : Local 1 m (expect e) (expect e) where
  forward p := by
    unfold expect
    split
    · exact p.length_tokens_advance_le
    · exact Nat.le_refl _
  alike {t rest rest' ts p p'} hp hts := by
    rw [expect, expect, ← hp.current_eq]
    split
    · cases ts with
      | nil =>
        refine .passed (Nat.le_of_eq ?_)
        rw [Parsed.last, Parser.tokens_advance hp.left hp.more]
      | cons u us =>
        refine .done ⟨?_, ?_, ?_, hp.more, hp.more'⟩ (Nat.le_refl _)
        · rw [Parser.toDraft_advance, Parser.toDraft_advance, hp.draft]
        · exact Parser.tokens_advance hp.left (by simp)
        · exact Parser.tokens_advance hp.right (by simp)
    · exact alike hp hts

instance (x x' : Parse α) (f f' : α → Parse β) [hx : Local 0 m x x']
    [hf : ∀ a, Local 0 m (f a) (f' a)] : Local 0 m (x >>= f) (x' >>= f') :=
  hx.bind hf

instance (x x' : Parse α) (f f' : α → Parse β) [hx : Local 0 m x x']
    [hf : ∀ a, Local 1 m (f a) (f' a)] : Local 1 m (x >>= f) (x' >>= f') :=
  hx.bind hf

instance (x x' : Parse α) (f f' : α → Parse β) [hx : Local 1 m x x']
    [hf : ∀ a, Local 0 m (f a) (f' a)] : Local 1 m (x >>= f) (x' >>= f') :=
  hx.bind fun a => (hf a).mono (Nat.le_refl _) (Nat.sub_le _ _)

-- Behind a token there is one token less in front of the last common one.
instance (x x' : Parse α) (f f' : α → Parse β) [hx : Local 1 (m + 1) x x']
    [hf : ∀ a, Local 0 m (f a) (f' a)] : Local 1 (m + 1) (x >>= f) (x' >>= f') :=
  hx.bind hf

instance (b : Bool) (x x' y y' : Parse α) [hx : Local k m x x'] [hy : Local k m y y'] :
    Local k m (if b then x else y) (if b then x' else y') := by
  split
  · exact hx
  · exact hy

instance (kind : Kind) : Local 0 m (accept kind) (accept kind) := by
  unfold accept
  infer_instance

instance (x x' : Parse α) [Local 0 m x x'] : Local 0 m (inScope x) (inScope x') := by
  unfold inScope
  infer_instance

variable {e : Expected}

theorem foldUpTo_forward {step : α → Parse α} (hs : ∀ a, Local 0 0 (step a) (step a)) (n : Nat)
    (a : α) : Local 0 0 (foldUpTo e step n a) (foldUpTo e step n a) := by
  induction n generalizing a with
  | zero => exact inferInstanceAs (Local 0 0 (pure a) (pure a))
  | succ n ih =>
    rw [foldUpTo_succ]
    infer_instance

theorem foldUpTo_local {step step' : α → Parse α} (hs : ∀ a, Local 1 m (step a) (step' a)) (i : Nat)
    (hi : i ≤ m) (j j' : Nat) (a : α) :
    Local 0 i (foldUpTo e step (i + j) a) (foldUpTo e step' (i + j') a) := by
  induction i generalizing a with
  | zero => exact (foldUpTo_forward (fun a => (hs a).zero _) _ a).zero _
  | succ i ih =>
    have hs' (a : α) := (hs a).mono (Nat.le_refl _) hi
    have ih' := ih (Nat.le_of_succ_le hi)
    rw [Nat.add_right_comm i 1 j, Nat.add_right_comm i 1 j', foldUpTo_succ, foldUpTo_succ]
    infer_instance

instance (step step' : α → Parse α) [hs : ∀ a, Local 1 m (step a) (step' a)] (a : α) :
    Local 0 m (fold e step a) (fold e step' a) :=
  of_fuel (foldUpTo e step · a) (foldUpTo e step' · a) fun i hi j j' =>
    foldUpTo_local hs i hi j j' a

theorem manyUpTo_forward {item : Parse α} (hi : Local 0 0 item item) (n : Nat) :
    Local 0 0 (manyUpTo e item n) (manyUpTo e item n) := by
  induction n with
  | zero => exact inferInstanceAs (Local 0 0 (pure []) (pure []))
  | succ n ih =>
    rw [manyUpTo_succ]
    infer_instance

theorem manyUpTo_local {item item' : Parse α} (hs : Local 1 m item item') (i : Nat) (hi : i ≤ m)
    (j j' : Nat) : Local 0 i (manyUpTo e item (i + j)) (manyUpTo e item' (i + j')) := by
  induction i with
  | zero => exact (manyUpTo_forward (hs.zero _) _).zero _
  | succ i ih =>
    have hs' := hs.mono (Nat.le_refl _) hi
    have ih' := ih (Nat.le_of_succ_le hi)
    rw [Nat.add_right_comm i 1 j, Nat.add_right_comm i 1 j', manyUpTo_succ, manyUpTo_succ]
    infer_instance

instance (item item' : Parse α) [hs : Local 1 m item item'] :
    Local 0 m (many e item) (many e item') :=
  of_fuel (manyUpTo e item) (manyUpTo e item') (manyUpTo_local hs)

instance (item item' : Parse α) [Local 1 m item item'] :
    Local 0 m (commaList e item) (commaList e item') := by
  unfold commaList
  infer_instance

section Rules

-- The longest rules have a dozen steps, each of which is a search of its own.
set_option synthInstance.maxSize 1024

variable (atom atom' expression expression' statement statement' : Parse Node)

instance (level : Nonterminal) (left : Node) [Local 1 m atom atom'] :
    Local 1 m (operation level atom left) (operation level atom' left) := by
  unfold operation
  infer_instance

instance [Local 1 m atom atom'] : Local 1 m (comparison atom) (comparison atom') := by
  unfold comparison sum product
  infer_instance

instance (base : Node) [Local 1 m expression expression'] :
    Local 1 m (element expression base) (element expression' base) := by
  unfold element
  infer_instance

instance : Local 1 m place place := by
  unfold place
  infer_instance

instance [Local 1 m expression expression'] :
    Local 1 m (designatorOf expression) (designatorOf expression') := by
  unfold designatorOf
  infer_instance

instance [Local 1 m expression expression'] :
    Local 0 m (arguments expression) (arguments expression') := by
  unfold arguments
  infer_instance

instance [Local 1 m expression expression'] :
    Local 1 m (callOf expression) (callOf expression') := by
  unfold callOf
  infer_instance

instance : Local 1 m literal literal := by
  unfold literal
  infer_instance

-- Every way into a nested operand begins with a token.
instance [Local 1 m atom atom'] : Local 1 (m + 1) (operand atom) (operand atom') := by
  have hdesignator : Local 1 (m + 1) (designatorOf (comparison atom))
      (designatorOf (comparison atom')) := by
    unfold designatorOf
    infer_instance
  have hcall : Local 1 (m + 1) (callOf (comparison atom)) (callOf (comparison atom')) := by
    unfold callOf
    infer_instance
  unfold operand
  simp only [accept_bind, if_true, Bool.false_eq_true, if_false]
  infer_instance

theorem operandAt_forward (n : Nat) : Local 1 0 (operandAt n) (operandAt n) := by
  induction n with
  | zero => exact inferInstanceAs (Local 1 0 (fail Nonterminal.expression3) (fail _))
  | succ n ih =>
    have : Local 1 1 (operand (operandAt n)) (operand (operandAt n)) := inferInstance
    exact this.zero _

theorem operandAt_local (i j j' : Nat) : Local 1 i (operandAt (i + j)) (operandAt (i + j')) := by
  induction i with
  | zero => exact (operandAt_forward _).zero _
  | succ i ih =>
    rw [Nat.add_right_comm i 1 j, Nat.add_right_comm i 1 j']
    exact inferInstanceAs
      (Local 1 (i + 1) (operand (operandAt (i + j))) (operand (operandAt (i + j'))))

instance : Local 1 m Parse.expression Parse.expression :=
  of_fuel (fun n => comparison (operandAt n)) (fun n => comparison (operandAt n)) fun i _ j j' =>
    have := operandAt_local i j j'
    inferInstance

instance : Local 1 m typeName typeName := by
  unfold typeName
  infer_instance

instance : Local 1 m extent extent := by
  unfold extent
  infer_instance

instance : Local 1 m variableDeclaration variableDeclaration := by
  unfold variableDeclaration
  infer_instance

instance : Local 1 m arrayDeclaration arrayDeclaration := by
  unfold arrayDeclaration
  infer_instance

instance : Local 1 m callStatement callStatement := by
  unfold callStatement callExpression
  infer_instance

instance : Local 1 m assignment assignment := by
  unfold assignment designator
  infer_instance

instance : Local 1 m returnStatement returnStatement := by
  unfold returnStatement
  infer_instance

instance [Local 1 m statement statement'] :
    Local 1 m (blockOf statement) (blockOf statement') := by
  unfold blockOf
  infer_instance

instance [Local 1 m statement statement'] :
    Local 1 (m + 1) (ifStatement statement) (ifStatement statement') := by
  unfold ifStatement
  infer_instance

instance [Local 1 m statement statement'] :
    Local 1 (m + 1) (whileStatement statement) (whileStatement statement') := by
  unfold whileStatement
  infer_instance

instance [Local 1 m statement statement'] :
    Local 1 (m + 1) (statementOf statement) (statementOf statement') := by
  unfold statementOf
  infer_instance

theorem statementAt_forward (n : Nat) : Local 1 0 (statementAt n) (statementAt n) := by
  induction n with
  | zero => exact inferInstanceAs (Local 1 0 (fail Nonterminal.statement) (fail _))
  | succ n ih =>
    have : Local 1 1 (statementOf (statementAt n)) (statementOf (statementAt n)) := inferInstance
    exact this.zero _

theorem statementAt_local (i j j' : Nat) :
    Local 1 i (statementAt (i + j)) (statementAt (i + j')) := by
  induction i with
  | zero => exact (statementAt_forward _).zero _
  | succ i ih =>
    rw [Nat.add_right_comm i 1 j, Nat.add_right_comm i 1 j']
    exact inferInstanceAs
      (Local 1 (i + 1) (statementOf (statementAt (i + j))) (statementOf (statementAt (i + j'))))

instance : Local 1 m block block :=
  of_fuel (fun n => blockOf (statementAt n)) (fun n => blockOf (statementAt n)) fun i _ j j' =>
    have := statementAt_local i j j'
    inferInstance

instance : Local 1 m parameter parameter := by
  unfold parameter
  infer_instance

instance (b : Binding) : Local 0 m (functionRest b) (functionRest b) := by
  unfold functionRest
  infer_instance

instance : Local 1 m functionDefinition functionDefinition := by
  unfold functionDefinition
  infer_instance

instance : Local 1 m declaration declaration := by
  unfold declaration
  infer_instance

instance : Local 0 m program program := by
  unfold program
  infer_instance

end Rules

end Local

end Parse

end Crux
