import Crux.Grammar.Program
import Crux.Proofs.Erasure.Tree

namespace Crux

namespace Scopes

variable (s : Scopes) (b : Binding) (name : String)

@[simp] theorem type?_erased : s.erased.type? b = (s.type? b).map Ty.erased := by
  rw [type?, type?, erased, Array.getElem?_map]
  cases s.types[b.id]? with
  | _ => rfl

theorem symbol_erased : (s.symbol b).erased = s.erased.symbol b := by
  rw [symbol, Symbol.erased, symbol, type?_erased]

theorem fresh_erased (type? : Option Ty) :
    Prod.map id erased (s.fresh name type?) = s.erased.fresh name (type?.map Ty.erased) := by
  simp [fresh, erased]

theorem enter_erased : (s.enter b).erased = s.erased.enter b := by
  obtain ⟨outermost, inner, types⟩ := s
  cases inner with
  | _ => rfl

theorem innermost_erased : s.erased.innermost = s.innermost := rfl

theorem declare_erased : s.erased.declare name = (s.declare name).map (Prod.map id erased) := by
  rw [declare, declare, innermost_erased]
  split
  · rfl
  · rw [← Option.map_none Ty.erased, ← fresh_erased]
    exact congrArg (fun s => Except.ok (_, s)) (enter_erased ..).symm

theorem resolve_erased : s.erased.resolve name = s.resolve name := rfl

theorem placeholder_erased (message : String) :
    Prod.map id erased (s.placeholder name message) = s.erased.fresh name (some (.error "")) :=
  fresh_erased ..

theorem setType_erased (t : Ty) : (s.setType b t).erased = s.erased.setType b t.erased := by
  unfold setType
  rw [type?_erased, Option.isSome_map]
  split
  · rfl
  · simp [erased, Array.map_setIfInBounds]

end Scopes

namespace Draft

variable {d d' : Draft}

theorem erased_congr {scopes scopes' : Scopes} (hd : d.erased = d'.erased)
    (hs : scopes.erased = scopes'.erased) :
    Draft.erased { d with scopes := scopes } = Draft.erased { d' with scopes := scopes' } := by
  simp only [erased, mk.injEq] at hd ⊢
  exact ⟨hs, hd.2⟩

theorem report_alike {x x' : Diagnostic} (hd : d.erased = d'.erased) (hx : x.erased = x'.erased) :
    (d.report x).erased = (d'.report x').erased := by
  simp only [erased, report, List.map_append, List.map_cons, List.map_nil, mk.injEq] at hd ⊢
  rw [hd.2.2, hx]
  exact ⟨hd.1, hd.2.1, rfl⟩

theorem scopes_erased (hd : d.erased = d'.erased) : d.scopes.erased = d'.scopes.erased :=
  congrArg scopes hd

theorem troubled_alike {trouble trouble' : Scopes → Diagnostic} (hd : d.erased = d'.erased)
    (ht : (trouble d.scopes).erased = (trouble' d'.scopes).erased) (name : String) :
    Prod.map id erased (d.troubled name trouble) =
      Prod.map id erased (d'.troubled name trouble') := by
  have hp : Prod.map id Scopes.erased (d.scopes.placeholder name (trouble d.scopes).headline) =
      Prod.map id Scopes.erased (d'.scopes.placeholder name (trouble' d'.scopes).headline) := by
    rw [Scopes.placeholder_erased, Scopes.placeholder_erased, scopes_erased hd]
  obtain ⟨hb, hs⟩ := Prod.mk.inj hp
  exact Prod.ext hb (erased_congr (report_alike hd ht) hs)

theorem declare_alike (hd : d.erased = d'.erased) {t t' : Token} (ht : t.erased = t'.erased) :
    Prod.map id erased (d.declare t) = Prod.map id erased (d'.declare t') := by
  obtain ⟨kind, lexeme, pos⟩ := t
  obtain ⟨-, rfl, -⟩ := Token.mk.inj ht
  have hs := scopes_erased hd
  have h := (d.scopes.declare_erased t'.lexeme).symm.trans
    ((congrArg (·.declare t'.lexeme) hs).trans (d'.scopes.declare_erased t'.lexeme))
  simp only [declare]
  cases h₁ : d.scopes.declare t'.lexeme with
  | ok r =>
    cases h₂ : d'.scopes.declare t'.lexeme with
    | ok r' =>
      rw [h₁, h₂] at h
      obtain ⟨hb, hs⟩ := Prod.mk.inj (Except.ok.inj h)
      exact Prod.ext hb (erased_congr hd hs)
    | error =>
      rw [h₁, h₂] at h
      cases h
  | error =>
    cases h₂ : d'.scopes.declare t'.lexeme with
    | ok r' =>
      rw [h₁, h₂] at h
      cases h
    | error =>
      refine troubled_alike hd ?_ _
      exact congrArg (Diagnostic.redeclared .start _) hs

theorem resolve_alike (hd : d.erased = d'.erased) {t t' : Token} (ht : t.erased = t'.erased) :
    Prod.map id erased (d.resolve t) = Prod.map id erased (d'.resolve t') := by
  obtain ⟨kind, lexeme, pos⟩ := t
  obtain ⟨-, rfl, -⟩ := Token.mk.inj ht
  have hs := scopes_erased hd
  have h : d.scopes.resolve t'.lexeme = d'.scopes.resolve t'.lexeme := by
    rw [← Scopes.resolve_erased, hs, Scopes.resolve_erased]
  simp only [resolve, h]
  cases d'.scopes.resolve t'.lexeme with
  | ok b => exact Prod.ext rfl hd
  | error =>
    refine troubled_alike hd ?_ _
    exact congrArg (Diagnostic.unresolved .start _) hs

end Draft

namespace Parser

variable {p q : Parser}

theorem draft_erased (h : p.erased = q.erased) : p.toDraft.erased = q.toDraft.erased :=
  congrArg toDraft h

theorem current_erased (h : p.erased = q.erased) : p.current.erased = q.current.erased :=
  congrArg current h

theorem kind_eq (h : p.erased = q.erased) : p.current.kind = q.current.kind :=
  congrArg (·.current.kind) h

theorem length_later (h : p.erased = q.erased) : p.later.length = q.later.length := by
  simpa [erased] using congrArg (·.later.length) h

theorem erased_congr {d d' : Draft} (h : p.erased = q.erased) (hd : d.erased = d'.erased) :
    Parser.erased { p with toDraft := d } = Parser.erased { q with toDraft := d' } := by
  simp only [erased, mk.injEq] at h ⊢
  exact ⟨hd, h.2⟩

theorem advance_alike (h : p.erased = q.erased) : p.advance.erased = q.advance.erased := by
  obtain ⟨d, t, later⟩ := p
  obtain ⟨d', t', later'⟩ := q
  simp only [erased, mk.injEq] at h
  obtain ⟨hd, ht, hl⟩ := h
  cases later with
  | nil =>
    cases later' with
    | nil => simp [advance, erased, hd, ht]
    | cons => simp at hl
  | cons u later =>
    cases later' with
    | nil => simp at hl
    | cons u' later' =>
      obtain ⟨hu, hl⟩ := List.cons.inj hl
      simp [advance, erased, hd, hu, hl]

end Parser

def Parsed.erased {α β : Type} (view : α → β) : Parsed α → Parsed β
  | .done a p => .done (view a) p.erased
  | .stuck _ p => .stuck .start p.erased

theorem Parsed.erased_done {α β : Type} {view : α → β} {a b : α} {p q : Parser}
    (ha : view a = view b) (hp : p.erased = q.erased) :
    (Parsed.done a p).erased view = (Parsed.done b q).erased view := by
  rw [erased, erased, ha, hp]

theorem Parsed.erased_cases {α β : Type} {view : α → β} {r r' : Parsed α}
    (h : r.erased view = r'.erased view) :
    (∃ a b p q, r = .done a p ∧ r' = .done b q ∧ view a = view b ∧ p.erased = q.erased) ∨
      ∃ pos pos' p q, r = .stuck pos p ∧ r' = .stuck pos' q ∧ p.erased = q.erased := by
  cases r with
  | done a p =>
    cases r' with
    | done b q => exact .inl ⟨a, b, p, q, rfl, rfl, Parsed.done.inj h⟩
    | stuck => cases h
  | stuck pos p =>
    cases r' with
    | done => cases h
    | stuck pos' q => exact .inr ⟨pos, pos', p, q, rfl, rfl, (Parsed.stuck.inj h).2⟩

namespace Parse

variable {α β γ δ : Type} {v : α → β} {w : γ → δ} {x x' y y' : Parse α} {e : Expected}

/-- From parsers that are alike, the steps end alike, as far as the view goes. -/
def Agree (v : α → β) (x y : Parse α) : Prop :=
  ∀ p q, p.erased = q.erased → (x p).erased v = (y q).erased v

namespace Agree

theorem pure {a b : α} (h : v a = v b) : Agree v (pure a) (pure b) := by
  intro p q hp
  exact Parsed.erased_done h hp

theorem bind {f g : α → Parse γ} (hx : Agree v x y)
    (hf : ∀ a b, v a = v b → Agree w (f a) (g b)) : Agree w (x >>= f) (y >>= g) := by
  intro p q hp
  rw [bind_run, bind_run]
  obtain ⟨a, b, p', q', hxp, hyq, hv, hb⟩ | ⟨_, _, p', q', hxp, hyq, hb⟩ :=
    Parsed.erased_cases (hx p q hp)
  · rw [hxp, hyq]
    exact hf a b hv p' q' hb
  · rw [hxp, hyq]
    exact congrArg (Parsed.stuck .start) hb

theorem make {f g : Draft → α × Draft}
    (h : ∀ d d', d.erased = d'.erased →
      Prod.map v Draft.erased (f d) = Prod.map v Draft.erased (g d')) :
    Agree v (make f) (make g) := by
  intro p q hp
  obtain ⟨hv, hd⟩ := Prod.mk.inj (h _ _ (Parser.draft_erased hp))
  exact Parsed.erased_done hv (Parser.erased_congr hp hd)

theorem position : Agree (fun _ => ()) position position :=
  fun _ _ hp => congrArg (Parsed.done ()) hp

theorem sees (e : Expected) : Agree id (sees e) (sees e) := by
  intro p q hp
  exact Parsed.erased_done (congrArg e.admits (Parser.kind_eq hp)) hp

theorem fail (e : Expected) : Agree v (fail e) (fail e) := by
  intro p q hp
  have hx : (Diagnostic.unexpected p.current.pos e p.current.kind).erased =
      (Diagnostic.unexpected q.current.pos e q.current.kind).erased :=
    congrArg (Diagnostic.unexpected .start e) (Parser.kind_eq hp)
  exact congrArg (Parsed.stuck .start)
    (Parser.erased_congr hp (Draft.report_alike (Parser.draft_erased hp) hx))

theorem expect (e : Expected) : Agree Token.erased (expect e) (expect e) := by
  intro p q hp
  rw [Parse.expect, Parse.expect, Parser.kind_eq hp]
  split
  · exact Parsed.erased_done (Parser.current_erased hp) (Parser.advance_alike hp)
  · exact fail e p q hp

theorem ite {c c' : Parse Bool} (hc : Agree id c c') (hx : Agree v x x') (hy : Agree v y y') :
    Agree v (do if ← c then x else y) (do if ← c' then x' else y') := by
  refine hc.bind fun a b hab => ?_
  obtain rfl : a = b := hab
  cases a with
  | true => exact hx
  | false => exact hy

theorem accept (k : Kind) : Agree id (accept k) (accept k) :=
  ite (sees k) ((expect k).bind fun _ _ _ => pure rfl) (pure rfl)

theorem node {pos pos' : Position} {build build' : Tag → Node}
    (h : ∀ i, (build ⟨i, pos⟩).erased = (build' ⟨i, pos'⟩).erased) :
    Agree Node.erased (node pos build) (node pos' build') := by
  refine make fun d d' hd => ?_
  have hi : d.nextId = d'.nextId := congrArg (·.nextId) hd
  refine Prod.ext ?_ ?_
  · show (build ⟨d.nextId, pos⟩).erased = (build' ⟨d'.nextId, pos'⟩).erased
    rw [hi, h]
  · simp only [Draft.erased, Draft.mk.injEq] at hd
    simp [Draft.node, Draft.erased, hd]

theorem declare {t t' : Token} (h : t.erased = t'.erased) : Agree id (declare t) (declare t') :=
  make fun _ _ hd => Draft.declare_alike hd h

theorem resolve {t t' : Token} (h : t.erased = t'.erased) : Agree id (resolve t) (resolve t') :=
  make fun _ _ hd => Draft.resolve_alike hd h

theorem setType {b b' : Binding} {t t' : Ty} (hb : b = b') (ht : t.erased = t'.erased) :
    Agree id (setType b t) (setType b' t') := by
  subst hb
  refine make fun d d' hd => Prod.ext rfl (Draft.erased_congr hd ?_)
  rw [Scopes.setType_erased, Scopes.setType_erased, Draft.scopes_erased hd, ht]

theorem symbol {b b' : Binding} (hb : b = b') : Agree Symbol.erased (symbol b) (symbol b') := by
  subst hb
  refine make fun d d' hd => Prod.ext ?_ hd
  show (d.symbol b).erased = (d'.symbol b).erased
  rw [Draft.symbol, Draft.symbol, Scopes.symbol_erased, Scopes.symbol_erased,
    Draft.scopes_erased hd]

theorem inScope (h : Agree v x y) : Agree v (inScope x) (inScope y) := by
  have hopen : Agree id (Parse.make fun d => ((), d.openScope))
      (Parse.make fun d => ((), d.openScope)) := by
    refine make fun d d' hd => Prod.ext rfl (Draft.erased_congr hd ?_)
    exact congrArg Scopes.push (Draft.scopes_erased hd)
  have hclose : Agree id (Parse.make fun d => ((), d.closeScope))
      (Parse.make fun d => ((), d.closeScope)) := by
    refine make fun d d' hd => Prod.ext rfl (Draft.erased_congr hd ?_)
    exact congrArg Scopes.pop (Draft.scopes_erased hd)
  exact hopen.bind fun _ _ _ => h.bind fun a b hab => hclose.bind fun _ _ _ => pure hab

theorem map_cons_congr {a b : α} {as bs : List α} (h : v a = v b) (hs : as.map v = bs.map v) :
    (a :: as).map v = (b :: bs).map v := by
  rw [List.map_cons, h, hs, List.map_cons]

theorem manyUpTo (h : Agree v x y) (e : Expected) (n : Nat) :
    Agree (List.map v) (manyUpTo e x n) (manyUpTo e y n) := by
  induction n with
  | zero => exact fun _ _ hp => congrArg (Parsed.done []) hp
  | succ n ih =>
    refine ite (sees e) (h.bind fun a b hab => ?_) (pure rfl)
    exact ih.bind fun as bs has => pure (map_cons_congr hab has)

theorem many (h : Agree v x y) (e : Expected) : Agree (List.map v) (many e x) (many e y) := by
  intro p q hp
  rw [Parse.many, Parse.many, Parser.length_later hp]
  exact h.manyUpTo e _ p q hp

theorem foldUpTo {f g : α → Parse α} (h : ∀ a b, v a = v b → Agree v (f a) (g b)) (e : Expected)
    (n : Nat) {a b : α} (hab : v a = v b) : Agree v (foldUpTo e f n a) (foldUpTo e g n b) := by
  induction n generalizing a b with
  | zero => exact pure hab
  | succ n ih => exact ite (sees e) ((h a b hab).bind fun a b hab => ih hab) (pure hab)

theorem fold {f g : α → Parse α} (h : ∀ a b, v a = v b → Agree v (f a) (g b)) (e : Expected)
    {a b : α} (hab : v a = v b) : Agree v (fold e f a) (fold e g b) := by
  intro p q hp
  rw [Parse.fold, Parse.fold, Parser.length_later hp]
  exact foldUpTo h e _ hab p q hp

theorem commaList (h : Agree v x y) (e : Expected) :
    Agree (List.map v) (commaList e x) (commaList e y) := by
  refine ite (sees e) (h.bind fun a b hab => ?_) (pure rfl)
  refine (many ((expect _).bind fun _ _ _ => h) _).bind fun as bs has => ?_
  exact pure (map_cons_congr hab has)

end Agree

end Parse

end Crux
