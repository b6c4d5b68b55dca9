import Crux.Proofs.Grammar.Reads
import Crux.Proofs.Phrase.Expression

namespace Crux

theorem Kind.mem_all (k : Kind) : k ∈ all := by
  cases k <;> decide

instance {P : Kind → Prop} [DecidablePred P] : Decidable (∀ k, P k) :=
  decidable_of_iff (∀ k ∈ Kind.all, P k) ⟨fun h k => h k k.mem_all, fun h k _ => h k⟩

def Opens (e : Expected) (ts : List Token) : Prop := ∃ (t : TokenOf e) (us : List Token), ts = t.val :: us

namespace Opens

theorem append {e : Expected} {ts : List Token} (h : Opens e ts) (us : List Token) :
    Opens e (ts ++ us) := by
  obtain ⟨t, vs, rfl⟩ := h
  exact ⟨t, vs ++ us, rfl⟩

theorem mono {e e' : Expected} {ts : List Token} (h : Opens e ts)
    (he : ∀ k, e.admits k → e'.admits k) : Opens e' ts := by
  obtain ⟨⟨t, ht⟩, us, rfl⟩ := h
  exact ⟨⟨t, he _ ht⟩, us, rfl⟩

end Opens

theorem TokenOf.kind_eq {k : Kind} (t : TokenOf k) : t.val.kind = k := by
  simpa [Expected.admits, eq_comm] using t.property

namespace Parse

variable {α β : Type} {d : Draft}

theorem bind_done {x : Parse α} {f : α → Parse β} {p q : Parser} {a : α} (h : x p = .done a q) :
    (x >>= f) p = f a q := by
  rw [bind_run, h]

theorem make_reading (f : Draft → α × Draft) (ts : List Token) :
    make f (d.reading ts) = .done (f d).1 ((f d).2.reading ts) := rfl

theorem position_reading (t : Token) (ts : List Token) :
    position (d.reading (t :: ts)) = .done t.pos (d.reading (t :: ts)) := rfl

theorem sees_reading (e : Expected) (t : Token) (ts : List Token) :
    sees e (d.reading (t :: ts)) = .done (e.admits t.kind) (d.reading (t :: ts)) := rfl

theorem expect_reading {e : Expected} (t : TokenOf e) {ts : List Token} (h : ts ≠ []) :
    expect e (d.reading (t.val :: ts)) = .done t.val (d.reading ts) := by
  cases ts with
  | nil => exact absurd rfl h
  | cons u rest => exact if_pos t.property

theorem accept_reading {k : Kind} (t : TokenOf k) {ts : List Token} (h : ts ≠ []) :
    accept k (d.reading (t.val :: ts)) = .done true (d.reading ts) := by
  rw [accept, bind_done (sees_reading _ _ _), t.property, if_pos rfl,
    bind_done (expect_reading t h)]
  rfl

theorem accept_reading_other {k : Kind} {t : Token} (h : t.kind ≠ k) (ts : List Token) :
    accept k (d.reading (t :: ts)) = .done false (d.reading (t :: ts)) := by
  rw [accept, bind_done (sees_reading _ _ _)]
  simp [Expected.admits, h.symm, pure_run]

def kindOf : List Token → Kind → Kind
  | [], k => k
  | t :: _, _ => t.kind

/-- The step reads the tokens and makes something, if the kind of the token behind them is fine.
What it makes may depend on where that token begins. -/
def Makes (x : Parse α) (ts : List Token) (f : Position → Draft → α × Draft) (fine : Kind → Bool) :
    Prop :=
  ∀ d t rest, fine t.kind →
    x (d.reading (ts ++ t :: rest)) = .done (f t.pos d).1 ((f t.pos d).2.reading (t :: rest))

/-- The step reads the tokens and makes a value for further steps to extend. -/
def Leads (x : Parse α) (ts : List Token) (f : Draft → α × Draft) (e : Expected)
    (step : α → Parse α) (fine : Kind → Bool) : Prop :=
  ∀ d t rest, fine t.kind → ∃ n, rest.length < n ∧
    x (d.reading (ts ++ t :: rest)) = foldUpTo e step n (f d).1 ((f d).2.reading (t :: rest))

variable {x : Parse α} {ts us : List Token} {f : Draft → α × Draft} {e : Expected}
  {step : α → Parse α} {fine fine' : Kind → Bool}

theorem Makes.leads (h : x.Makes ts (fun _ => f) fine) :
    (x >>= fold e step).Leads ts f e step fine := by
  intro d t rest ht
  exact ⟨rest.length + 1, Nat.lt_succ_self _, bind_done (h d t rest ht)⟩

theorem Leads.makes (h : x.Leads ts f e step fine)
    (stop : ∀ k, fine' k → fine k ∧ e.admits k = false) : x.Makes ts (fun _ => f) fine' := by
  intro d t rest ht
  obtain ⟨n, -, hn⟩ := h d t rest (stop _ ht).1
  rw [hn]
  cases n with
  | zero => rfl
  | succ n => rw [foldUpTo_succ, bind_done (sees_reading _ _ _), (stop _ ht).2]; rfl

theorem Leads.extend {g : α → Draft → α × Draft} {u : Token} (h : x.Leads ts f e step fine)
    (hu : e.admits u.kind) (fineu : fine u.kind)
    (hs : ∀ a, (step a).Makes (u :: us) (fun _ => g a) fine) :
    x.Leads (ts ++ u :: us) (fun d => g (f d).1 (f d).2) e step fine := by
  intro d t rest ht
  obtain ⟨n, hn, hx⟩ := h d u (us ++ t :: rest) fineu
  obtain ⟨n, rfl⟩ : ∃ m, n = m + 1 := ⟨n - 1, by omega⟩
  refine ⟨n, by simp at hn; omega, ?_⟩
  rw [List.append_assoc, List.cons_append, hx, foldUpTo_succ, bind_done (sees_reading _ _ _), hu,
    if_pos rfl, ← List.cons_append, bind_done (hs _ _ t rest ht)]

theorem manyUpTo_none {item : Parse α} (n : Nat) (stop : ∀ k, fine k → e.admits k = false) :
    (manyUpTo e item n).Makes [] (fun _ d => ([], d)) fine := by
  intro d t rest ht
  cases n with
  | zero => rfl
  | succ n =>
    rw [manyUpTo_succ, List.nil_append, bind_done (sees_reading _ _ _), stop _ ht]
    rfl

theorem Makes.before {f : Position → Draft → α × Draft} (h : x.Makes ts f fine) {t : Token}
    (ht : fine (kindOf us t.kind)) (d : Draft) (rest : List Token) :
    x (d.reading (ts ++ (us ++ t :: rest))) =
      .done (f (startOf us t.pos) d).1 ((f (startOf us t.pos) d).2.reading (us ++ t :: rest)) := by
  cases us with
  | nil => exact h d t rest ht
  | cons u us => exact h d u _ ht

theorem sees_opens (h : Opens e ts) (d : Draft) (us : List Token) :
    sees e (d.reading (ts ++ us)) = .done true (d.reading (ts ++ us)) := by
  obtain ⟨t, vs, rfl⟩ := h
  rw [List.cons_append, sees_reading, t.property]

theorem position_start (d : Draft) (ts : List Token) (t : Token) (rest : List Token) :
    position (d.reading (ts ++ t :: rest)) =
      .done (startOf ts t.pos) (d.reading (ts ++ t :: rest)) := by
  cases ts <;> rfl

section Rows

variable {item : Parse α} {f : Position → Draft → α × Draft}
  {g : Position → Draft → List α × Draft}

def makeCons (f : Position → Draft → α × Draft) (us : List Token)
    (g : Position → Draft → List α × Draft) (after : Position) (d : Draft) : List α × Draft :=
  let (a, d) := f (startOf us after) d
  let (as, d) := g after d
  (a :: as, d)

theorem manyUpTo_next {n : Nat} (ho : Opens e ts) (next : ∀ k, fine k → fine' (kindOf us k))
    (hi : item.Makes ts f fine') (hr : (manyUpTo e item n).Makes us g fine) :
    (manyUpTo e item (n + 1)).Makes (ts ++ us) (makeCons f us g) fine := by
  intro d t rest ht
  rw [List.append_assoc, manyUpTo_succ, bind_done (sees_opens ho _ _), if_pos rfl,
    bind_done (hi.before (next _ ht) d rest), bind_done (hr _ t rest ht)]
  rfl

theorem many_makes (h : ∀ n, ts.length ≤ n → (manyUpTo e item n).Makes ts g fine) :
    (many e item).Makes ts g fine := by
  intro d t rest ht
  refine h _ ?_ d t rest ht
  simp only [Draft.reading, List.length_tail, List.length_append, List.length_cons]
  omega

theorem commaList_none (stop : ∀ k, fine k → e.admits k = false) :
    (commaList e item).Makes [] (fun _ d => ([], d)) fine := by
  intro d t rest ht
  rw [commaList, List.nil_append, bind_done (sees_reading _ _ _), stop _ ht]
  rfl

theorem commaList_some (ho : Opens e ts) (next : ∀ k, fine k → fine' (kindOf us k))
    (hi : item.Makes ts f fine')
    (hr : (many Kind.comma (do let _ ← expect Kind.comma; item)).Makes us g fine) :
    (commaList e item).Makes (ts ++ us) (makeCons f us g) fine := by
  intro d t rest ht
  rw [List.append_assoc, commaList, bind_done (sees_opens ho _ _), if_pos rfl,
    bind_done (hi.before (next _ ht) d rest), bind_done (hr _ t rest ht)]
  rfl

theorem comma_item (comma : TokenOf Kind.comma) (hi : item.Makes ts f fine) :
    (do let _ ← expect Kind.comma; item).Makes (comma.val :: ts) f fine := by
  intro d t rest ht
  rw [List.cons_append, bind_done (expect_reading comma (by simp))]
  exact hi d t rest ht

end Rows

end Parse

end Crux
