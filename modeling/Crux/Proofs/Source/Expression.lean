import Crux.Proofs.Phrase.Numbering
import Crux.Proofs.Source.Tree

namespace Crux

namespace Source

structure Context.Reached (Γ : Context) (d : Draft) : Prop where
  shows : d.Shows Γ.env
  made : d.made = Γ.next
  quiet : d.diagnostics = []

/-- Building leads from one context to another and gives `x`, up to what `erase` takes away. -/
def Gives {α : Type} (erase : α → α) (build : Draft → α × Draft) (Γ Γ' : Context) (x : α) : Prop :=
  ∀ d, Γ.Reached d → erase (build d).1 = x ∧ Γ'.Reached (build d).2

theorem Context.Reached.node {Γ : Context} {d : Draft} (h : Γ.Reached d) (pos : Position)
    (build : Tag → Node) : Γ.Reached (d.node pos build).2 :=
  ⟨⟨h.shows.env_eq, h.shows.bounded⟩, h.made, h.quiet⟩

theorem Context.Reached.resolve {Γ : Context} {d : Draft} (h : Γ.Reached d) {x : Name}
    (hx : Γ.Knows x) {ident : Token} (ht : ident.lexeme = x.text) :
    ∃ b, d.resolve ident = (b, d) ∧ d.symbol b = Γ.symbol x := by
  obtain ⟨s, hs⟩ := Option.isSome_iff_exists.mp hx
  obtain ⟨b, hb, he⟩ := Draft.resolve_found h.shows (ht ▸ hs)
  exact ⟨b, hb, by rw [he, Context.symbol, hs]; rfl⟩

theorem Spells.token {ts : List Token} {w : Word} {ws : List Word} (h : Spells ts (w :: ws))
    (e : Expected) (he : e.admits w.kind) :
    ∃ (t : TokenOf e) (rest : List Token),
      ts = t.val :: rest ∧ t.val.kind = w.kind ∧ t.val.lexeme = w.text ∧ Spells rest ws := by
  obtain ⟨t, rest, rfl, hk, hl, h⟩ := Spells.cons_iff.mp h
  exact ⟨⟨t, hk ▸ he⟩, rest, rfl, hk, hl, h⟩

theorem Spells.last {ts : List Token} {w : Word} (h : Spells ts [w]) (e : Expected)
    (he : e.admits w.kind) :
    ∃ t : TokenOf e, ts = [t.val] ∧ t.val.kind = w.kind ∧ t.val.lexeme = w.text := by
  obtain ⟨t, rest, rfl, hk, hl, h⟩ := h.token e he
  exact ⟨t, by rw [Spells.nil_iff.mp h], hk, hl⟩

end Source

open Source

def Form.bare : (f : Form) → f.Result → f.Result
  | .arguments, ns | .further, ns => Node.bareAll ns
  | .operand, n | .product, n | .sum, n | .comparison, n | .designator, n | .call, n => n.bare

namespace Source

def Reads (f : Form) (ws : List Word) (Γ : Context) (x : f.Result) : Prop :=
  ∀ ts, Spells ts ws → ∃ ph : Phrase f, ph.tokens = ts ∧ Gives f.bare ph.build Γ Γ x

def ReadsAt : (level : Nat) → List Word → Context → Node → Prop
  | 0 => Reads .comparison
  | 1 => Reads .sum
  | 2 => Reads .product
  | _ + 3 => Reads .operand

namespace ReadsAt

variable {ws : List Word} {Γ : Context} {x : Node} {m n : Nat}

theorem loosen (h : ReadsAt (n + 1) ws Γ x) : ReadsAt n ws Γ x := by
  match n with
  | 0 =>
    intro ts hts
    obtain ⟨ph, ht, hg⟩ := h ts hts
    exact ⟨.plain ph, ht, hg⟩
  | 1 =>
    intro ts hts
    obtain ⟨ph, ht, hg⟩ := h ts hts
    exact ⟨.term ph, ht, hg⟩
  | 2 =>
    intro ts hts
    obtain ⟨ph, ht, hg⟩ := h ts hts
    exact ⟨.factor ph, ht, hg⟩
  | _ + 3 => exact h

theorem mono (hmn : m ≤ n) (h : ReadsAt n ws Γ x) : ReadsAt m ws Γ x := by
  induction hmn with
  | refl => exact h
  | step _ ih => exact ih h.loosen

theorem group (h : ReadsAt n ws Γ x) :
    ReadsAt m (.fixed .openParen :: (ws ++ [.fixed .closeParen])) Γ x := by
  have h₀ : Reads .comparison ws Γ x := h.mono (Nat.zero_le n)
  refine mono (Nat.le_add_right m 3) (fun ts hts => ?_ : Reads .operand _ Γ x)
  obtain ⟨left, us, rfl, -, -, hus⟩ := hts.token Kind.openParen rfl
  obtain ⟨inner, vs, rfl, hi, hvs⟩ := Spells.append_iff.mp hus
  obtain ⟨right, rfl, -⟩ := hvs.last Kind.closeParen rfl
  obtain ⟨ph, rfl, hg⟩ := h₀ inner hi
  exact ⟨.group left ph right, rfl, hg⟩

theorem operand (own : Nat) (h : ReadsAt own ws Γ x) :
    ReadsAt m (Expr.operand m own ws) Γ x := by
  unfold Expr.operand
  split
  · exact h.group
  · exact h.mono (by omega)

end ReadsAt

theorem Gives.operation {left right : Draft → Node × Draft} {Γ : Context} {l r : Node} (op : Token)
    (node : Node → Node → Node) (hl : Gives Node.bare left Γ Γ l) (hr : Gives Node.bare right Γ Γ r)
    (ho : ∀ a b tag, (Parse.operatorNode op.kind a b tag).bare = node a.bare b.bare) :
    Gives Node.bare (fun d => Phrase.operation op (left d).1 (right (left d).2)) Γ Γ (node l r) := by
  intro d hd
  obtain ⟨rfl, hd₁⟩ := hl d hd
  obtain ⟨rfl, hd₂⟩ := hr _ hd₁
  exact ⟨ho _ _ _, hd₂.node _ _⟩

theorem Gives.cons {first : Draft → Node × Draft} {others : Draft → List Node × Draft}
    {Γ Γ₁ Γ₂ : Context} {n : Node} {ns : List Node} (hf : Gives Node.bare first Γ Γ₁ n)
    (ho : Gives Node.bareAll others Γ₁ Γ₂ ns) :
    Gives Node.bareAll (fun d => ((first d).1 :: (others (first d).2).1, (others (first d).2).2))
      Γ Γ₂ (n :: ns) := by
  intro d hd
  obtain ⟨rfl, hd₁⟩ := hf d hd
  obtain ⟨rfl, hd₂⟩ := ho _ hd₁
  exact ⟨rfl, hd₂⟩

theorem bare_operatorNode_binary (op : BinaryOp) (a b : Node) (tag : Tag) :
    (Parse.operatorNode (Word.ofBinary op).kind a b tag).bare =
      .binary .blank op a.bare b.bare := by
  cases op <;> simp [Parse.operatorNode, Word.ofBinary, Word.fixed, Node.bare]

theorem bare_operatorNode_compare (op : CompareOp) (a b : Node) (tag : Tag) :
    (Parse.operatorNode (Word.ofCompare op).kind a b tag).bare =
      .compare .blank op a.bare b.bare := by
  cases op <;> simp [Parse.operatorNode, Word.ofCompare, Word.fixed, Node.bare]

theorem Reads.operands {f g : Form} {us vs : List Word} {Γ : Context} {l : f.Result} {r : g.Result}
    {w : Word} {e : Expected} {ts : List Token} (hl : Reads f us Γ l) (hr : Reads g vs Γ r)
    (he : e.admits w.kind) (hts : Spells ts (us ++ w :: vs)) :
    ∃ (left : Phrase f) (t : TokenOf e) (right : Phrase g),
      ts = left.tokens ++ t.val :: right.tokens ∧ t.val.kind = w.kind ∧
      Gives f.bare left.build Γ Γ l ∧ Gives g.bare right.build Γ Γ r := by
  obtain ⟨ls, rest, rfl, hls, hrest⟩ := Spells.append_iff.mp hts
  obtain ⟨t, rs, rfl, hk, -, hrs⟩ := hrest.token e he
  obtain ⟨left, rfl, hl⟩ := hl ls hls
  obtain ⟨right, rfl, hr⟩ := hr rs hrs
  exact ⟨left, t, right, rfl, hk, hl, hr⟩

section

variable {us vs : List Word} {Γ : Context} {l r : Node}

theorem ReadsAt.binary (op : BinaryOp) (hl : ReadsAt (levelOf op) us Γ l)
    (hr : ReadsAt (levelOf op + 1) vs Γ r) :
    ReadsAt (levelOf op) (us ++ .ofBinary op :: vs) Γ (.binary .blank op l r) := by
  have hop : levelOf op = 1 ∧ (Nonterminal.op1 : Expected).admits (Word.ofBinary op).kind ∨
      levelOf op = 2 ∧ (Nonterminal.op2 : Expected).admits (Word.ofBinary op).kind := by
    cases op <;> decide
  obtain ⟨h, ha⟩ | ⟨h, ha⟩ := hop
  · rw [h] at hl hr ⊢
    intro ts hts
    obtain ⟨left, t, right, rfl, hk, hl, hr⟩ := Reads.operands (f := .sum) (g := .product) hl hr ha hts
    exact ⟨.sum left t right, rfl,
      hl.operation t (.binary .blank op) hr (hk ▸ bare_operatorNode_binary op)⟩
  · rw [h] at hl hr ⊢
    intro ts hts
    obtain ⟨left, t, right, rfl, hk, hl, hr⟩ := Reads.operands (f := .product) (g := .operand) hl hr ha hts
    exact ⟨.product left t right, rfl,
      hl.operation t (.binary .blank op) hr (hk ▸ bare_operatorNode_binary op)⟩

theorem ReadsAt.compare (op : CompareOp) (hl : ReadsAt 1 us Γ l) (hr : ReadsAt 1 vs Γ r) :
    ReadsAt 0 (us ++ .ofCompare op :: vs) Γ (.compare .blank op l r) := by
  have ha : (Nonterminal.op0 : Expected).admits (Word.ofCompare op).kind := by
    cases op <;> decide
  intro ts hts
  obtain ⟨left, t, right, rfl, hk, hl, hr⟩ := Reads.operands (f := .sum) (g := .sum) hl hr ha hts
  exact ⟨.comparison left t right, rfl,
    hl.operation t (.compare .blank op) hr (hk ▸ bare_operatorNode_compare op)⟩

end

theorem Literal.admits (l : Literal) : (Nonterminal.literal : Expected).admits l.word.kind := by
  match l with
  | .numeral _ | .decimal _ | .bool true | .bool false => rfl

theorem Literal.bare_node (l : Literal) {t : Token} (hk : t.kind = l.word.kind)
    (ht : t.lexeme = l.word.text) (tag : Tag) : (Parse.literalNode t tag).bare = l.tree := by
  match l with
  | .numeral n =>
    have hk : t.kind = .integer := hk
    have ht : t.lexeme = n.text := ht
    by_cases h : Text.digitsValue n.text.toList ≤ 2147483647
    · simp [Parse.literalNode, hk, ht, Parse.maxInt, tree, Numeral.value, h, Node.bare]
    · simp [Parse.literalNode, hk, ht, Parse.maxInt, tree, Numeral.value, h, Node.bare]
  | .decimal x =>
    have hk : t.kind = .float := hk
    have ht : t.lexeme = x.text := ht
    simp only [Parse.literalNode, hk, ht, tree]
    cases Binary32.read? x.text with
    | none => rfl
    | some value => rfl
  | .bool true =>
    have hk : t.kind = .kwTrue := hk
    simp only [Parse.literalNode, hk, tree, Node.bare]
  | .bool false =>
    have hk : t.kind = .kwFalse := hk
    simp only [Parse.literalNode, hk, tree, Node.bare]

namespace Expr

def Read (Γ : Context) : {s : Shape} → Expr s → Prop
  | .value, e => ReadsAt e.level e.words Γ (e.tree Γ)
  | .place, e => Reads .designator e.words Γ (e.tree Γ)
  | .row, e =>
    Reads .arguments e.words Γ (e.tree Γ) ∧ Reads .further (e.comma ++ e.words) Γ (e.tree Γ)

theorem Read.operand {Γ : Context} {e : Expr .value} (h : e.Read Γ) (level : Nat) :
    ReadsAt level (Expr.operand level e.level e.words) Γ (e.tree Γ) :=
  ReadsAt.operand e.level h

theorem Read.comparison {Γ : Context} {e : Expr .value} (h : e.Read Γ) :
    Reads .comparison e.words Γ (e.tree Γ) :=
  ReadsAt.mono (Nat.zero_le _) h

theorem reads_call {Γ : Context} {f : Name} {args : Expr .row} (hf : Γ.Knows f)
    (ha : Reads .arguments args.words Γ (args.tree Γ)) :
    Reads .call (call f args).words Γ ((call f args).tree Γ) := by
  intro ts hts
  obtain ⟨mark, us, rfl, -, -, hus⟩ := hts.token Kind.call rfl
  obtain ⟨ident, vs, rfl, -, hx, hvs⟩ := hus.token Kind.identifier rfl
  obtain ⟨left, ts, rfl, -, -, hts⟩ := hvs.token Kind.openParen rfl
  obtain ⟨inner, rest, rfl, hi, hrest⟩ := Spells.append_iff.mp hts
  obtain ⟨right, rfl, -⟩ := hrest.last Kind.closeParen rfl
  obtain ⟨ph, rfl, hg⟩ := ha inner hi
  refine ⟨.call mark ident left ph right, rfl, fun d hd => ?_⟩
  obtain ⟨b, hb, hs⟩ := hd.resolve hf hx
  obtain ⟨hn, hd'⟩ := hg d hd
  simp only [Phrase.build, hb, hs]
  exact ⟨by rw [tree, ← hn]; rfl, (hd'.node _ _).node _ _⟩

theorem read {Γ : Context} {s : Shape} (e : Expr s) (h : e.WellScoped Γ) : e.Read Γ := by
  induction e with
  | literal l =>
    intro ts hts
    obtain ⟨t, rfl, hk, ht⟩ := hts.last _ l.admits
    exact ⟨.literal t, rfl, fun d hd => ⟨l.bare_node hk ht _, hd.node _ _⟩⟩
  | load place ih =>
    intro ts hts
    obtain ⟨ph, rfl, hg⟩ := ih h ts hts
    refine ⟨.value ph, rfl, fun d hd => ?_⟩
    obtain ⟨hn, hd'⟩ := hg d hd
    exact ⟨congrArg (Node.dereference .blank) hn, hd'.node _ _⟩
  | call f args ih =>
    intro ts hts
    obtain ⟨ph, rfl, hg⟩ := reads_call h.1 (ih h.2).1 ts hts
    exact ⟨.result ph, rfl, hg⟩
  | not e ih =>
    intro ts hts
    obtain ⟨mark, us, rfl, -, -, hus⟩ := hts.token Kind.kwNot rfl
    obtain ⟨ph, rfl, hg⟩ := (ih h).operand 3 us hus
    refine ⟨.not mark ph, rfl, fun d hd => ?_⟩
    obtain ⟨hn, hd'⟩ := hg d hd
    exact ⟨congrArg (Node.not .blank) hn, hd'.node _ _⟩
  | binary op l r ihl ihr => exact .binary op ((ihl h.1).operand _) ((ihr h.2).operand _)
  | compare op l r ihl ihr => exact .compare op ((ihl h.1).operand 1) ((ihr h.2).operand 1)
  | name x =>
    intro ts hts
    obtain ⟨ident, rfl, -, hx⟩ := hts.last Kind.identifier rfl
    refine ⟨.name ident, rfl, fun d hd => ?_⟩
    obtain ⟨b, hb, hs⟩ := hd.resolve h hx
    simp only [Phrase.build, hb, hs]
    exact ⟨rfl, hd.node _ _⟩
  | element base amount ihb iha =>
    intro ts hts
    obtain ⟨bs, us, rfl, hbs, hus⟩ := Spells.append_iff.mp hts
    obtain ⟨left, vs, rfl, -, -, hvs⟩ := hus.token Kind.openBracket rfl
    obtain ⟨inner, rest, rfl, hi, hrest⟩ := Spells.append_iff.mp hvs
    obtain ⟨right, rfl, -⟩ := hrest.last Kind.closeBracket rfl
    obtain ⟨pb, rfl, hb⟩ := ihb h.1 bs hbs
    obtain ⟨pa, rfl, ha⟩ := (iha h.2).comparison inner hi
    refine ⟨.element pb left pa right, rfl, fun d hd => ?_⟩
    obtain ⟨hnb, hd₁⟩ := hb d hd
    obtain ⟨hna, hd₂⟩ := ha _ hd₁
    exact ⟨by rw [tree, ← hnb, ← hna]; rfl, hd₂.node _ _⟩
  | none =>
    constructor
    · exact fun ts hts => ⟨.noArguments, (Spells.nil_iff.mp hts).symm, fun d hd => ⟨rfl, hd⟩⟩
    · exact fun ts hts => ⟨.noFurther, (Spells.nil_iff.mp hts).symm, fun d hd => ⟨rfl, hd⟩⟩
  | next e rest ihe ihr =>
    have he := (ihe h.1).comparison
    obtain ⟨-, hr⟩ := ihr h.2
    constructor
    · intro ts hts
      obtain ⟨us, vs, rfl, hus, hvs⟩ := Spells.append_iff.mp hts
      obtain ⟨first, rfl, hf⟩ := he us hus
      obtain ⟨others, rfl, ho⟩ := hr vs hvs
      exact ⟨.arguments first others, rfl, hf.cons ho⟩
    · intro ts hts
      obtain ⟨comma, rest', rfl, -, -, hrest⟩ := hts.token Kind.comma rfl
      have hws : Spells rest' (e.words ++ (rest.comma ++ rest.words)) := hrest
      obtain ⟨us, vs, rfl, hus, hvs⟩ := Spells.append_iff.mp hws
      obtain ⟨first, rfl, hf⟩ := he us hus
      obtain ⟨others, rfl, ho⟩ := hr vs hvs
      exact ⟨.further comma first others, rfl, hf.cons ho⟩

end Expr

end Source

end Crux
