import Crux.Grammar.Program
import Crux.Proofs.Grammar.Ebnf

namespace Crux

namespace Parser

def tokens (p : Parser) : List Token := p.current :: p.later

structure Ended (p : Parser) : Prop where
  last : ∃ t, p.tokens.getLast? = some t ∧ t.kind = .eof
  others : ∀ t ∈ p.tokens.dropLast, t.kind ≠ .eof

theorem Ended.of_append {p q : Parser} {ts : List Token} (h : p.Ended)
    (e : p.tokens = ts ++ q.tokens) : q.Ended := by
  have hq : q.tokens ≠ [] := by simp [tokens]
  obtain ⟨⟨t, ht, hk⟩, ho⟩ := h
  rw [e, List.getLast?_append] at ht
  rw [e, List.dropLast_append_of_ne_nil hq] at ho
  refine ⟨⟨t, ?_, hk⟩, fun u hu => ho u (List.mem_append_right _ hu)⟩
  simpa [tokens, List.getLast?_cons] using ht

theorem Ended.of_eq {p q : Parser} (h : p.Ended) (e : p.tokens = q.tokens) : q.Ended :=
  ⟨e ▸ h.last, e ▸ h.others⟩

theorem Ended.later_eq_nil {p : Parser} (h : p.Ended) (hk : p.current.kind = .eof) :
    p.later = [] := by
  cases hl : p.later with
  | nil => rfl
  | cons u rest => exact absurd hk (h.others _ (by simp [tokens, hl]))

theorem Ended.current_eq {p : Parser} (h : p.Ended) (hl : p.later = []) : p.current.kind = .eof := by
  obtain ⟨t, ht, hk⟩ := h.last
  simp only [tokens, hl, List.getLast?_singleton, Option.some.injEq] at ht
  rw [ht, hk]

end Parser

namespace Parse

variable {α β : Type}

@[simp] theorem bind_eq_done {x : Parse α} {f : α → Parse β} {p q : Parser} {b : β} :
    (x >>= f) p = .done b q ↔ ∃ a r, x p = .done a r ∧ f a r = .done b q := by
  rw [bind_run]
  cases h : x p with
  | done a r => exact ⟨fun hf => ⟨a, r, rfl, hf⟩, by rintro ⟨_, _, ⟨rfl, rfl⟩, hf⟩; exact hf⟩
  | stuck pos r => simp

theorem bind_eq_stuck {x : Parse α} {f : α → Parse β} {p q : Parser} {pos : Position} :
    (x >>= f) p = .stuck pos q ↔
      x p = .stuck pos q ∨ ∃ a r, x p = .done a r ∧ f a r = .stuck pos q := by
  rw [bind_run]
  cases h : x p with
  | stuck pos' r => simp
  | done a r =>
    refine ⟨fun hf => .inr ⟨a, r, rfl, hf⟩, fun hf => ?_⟩
    obtain h | ⟨_, _, h, hf⟩ := hf
    · cases h
    · cases h
      exact hf

@[simp] theorem pure_eq_done {a b : α} {p q : Parser} :
    (pure a : Parse α) p = .done b q ↔ a = b ∧ p = q := by
  simp [pure_run]

@[simp] theorem fail_ne_done {e : Expected} {a : α} {p q : Parser} : fail e p ≠ .done a q := by
  simp [fail]

theorem foldUpTo_succ (e : Expected) (step : α → Parse α) (n : Nat) (a : α) :
    foldUpTo e step (n + 1) a =
      (do if ← sees e then step a >>= foldUpTo e step n else return a) := rfl

theorem manyUpTo_succ (e : Expected) (item : Parse α) (n : Nat) :
    manyUpTo e item (n + 1) =
      (do
        if ← sees e then
          let a ← item
          let rest ← manyUpTo e item n
          return a :: rest
        else return []) := rfl

def Silent (x : Parse α) : Prop := ∀ p, ∃ a q, x p = .done a q ∧ p.tokens = q.tokens

theorem Silent.tokens_eq {x : Parse α} {p q : Parser} {a : α} (hx : Silent x)
    (h : x p = .done a q) : p.tokens = q.tokens := by
  obtain ⟨b, r, hr, e⟩ := hx p
  obtain ⟨-, rfl⟩ := Parsed.done.inj (hr.symm.trans h)
  exact e

theorem Silent.ne_stuck {x : Parse α} {p q : Parser} {pos : Position} (hx : Silent x) :
    x p ≠ .stuck pos q := by
  obtain ⟨a, r, hr, -⟩ := hx p
  simp [hr]

theorem pure_silent (a : α) : Silent (pure a) := fun p => ⟨a, p, rfl, rfl⟩

theorem make_silent (f : Draft → α × Draft) : Silent (make f) := fun _ => ⟨_, _, rfl, rfl⟩

theorem position_silent : Silent position := fun p => ⟨_, p, rfl, rfl⟩

theorem sees_silent (e : Expected) : Silent (sees e) := fun p => ⟨_, p, rfl, rfl⟩

theorem Silent.bind {x : Parse α} {f : α → Parse β} (hx : Silent x) (hf : ∀ a, Silent (f a)) :
    Silent (x >>= f) := by
  intro p
  obtain ⟨a, r, hr, e⟩ := hx p
  obtain ⟨b, q, hq, e'⟩ := hf a r
  exact ⟨b, q, bind_eq_done.mpr ⟨a, r, hr, hq⟩, e.trans e'⟩

/-- The tokens of each finished run of the step are derived from `e`, and those of a run that breaks
off begin a row that is. -/
structure Reads (x : Parse α) (e : Ebnf) : Prop where
  done : ∀ {p a q}, p.Ended → x p = .done a q →
    ∃ ts, p.tokens = ts ++ q.tokens ∧ e.Derives (ts.map Token.kind)
  stuck : ∀ {p pos q}, p.Ended → x p = .stuck pos q →
    ∃ ts rest, p.tokens = ts ++ q.tokens ∧ e.Derives (ts.map Token.kind ++ rest)

theorem Reads.mono {x : Parse α} {g g' : Ebnf} (h : x.Reads g)
    (hg : ∀ {w}, g.Derives w → g'.Derives w) : x.Reads g' where
  done hp hx := by
    obtain ⟨ts, e, hd⟩ := h.done hp hx
    exact ⟨ts, e, hg hd⟩
  stuck hp hx := by
    obtain ⟨ts, rest, e, hd⟩ := h.stuck hp hx
    exact ⟨ts, rest, e, hg hd⟩

-- A step that breaks off at once has read the beginning of whatever can be completed at all.
theorem fail_reads (e : Expected) (g : Ebnf) [hg : g.Productive] : (fail e : Parse α).Reads g where
  done _ h := absurd h fail_ne_done
  stuck _ h := by
    obtain ⟨w, hw⟩ := hg.derives
    obtain ⟨-, rfl⟩ := Parsed.stuck.inj h
    exact ⟨[], w, rfl, hw⟩

theorem expect_tokens {e : Expected} {t : Token} {p q : Parser} (hp : p.Ended)
    (he : e.admits .eof = false) (h : expect e p = .done t q) :
    e.admits t.kind ∧ p.tokens = t :: q.tokens := by
  unfold expect at h
  split at h
  · rename_i hk
    obtain ⟨rfl, rfl⟩ := Parsed.done.inj h
    cases hl : p.later with
    | nil =>
      rw [hp.current_eq hl, he] at hk
      cases hk
    | cons u rest => exact ⟨hk, by simp [Parser.tokens, Parser.advance, hl]⟩
  · exact absurd h fail_ne_done

theorem expect_stuck_tokens {e : Expected} {p q : Parser} {pos : Position}
    (h : expect e p = .stuck pos q) : p.tokens = q.tokens := by
  unfold expect at h
  split at h
  · cases h
  · obtain ⟨-, rfl⟩ := Parsed.stuck.inj h
    rfl

theorem expect_reads_of {e : Expected} {g : Ebnf} [hg' : g.Productive] (he : e.admits .eof = false)
    (hg : ∀ k, e.admits k → g.Derives [k]) : (expect e).Reads g where
  done hp h := by
    obtain ⟨ht, et⟩ := expect_tokens hp he h
    exact ⟨[_], et, hg _ ht⟩
  stuck _ h := by
    obtain ⟨w, hw⟩ := hg'.derives
    exact ⟨[], w, expect_stuck_tokens h, hw⟩

theorem expect_reads {k : Kind} (hk : k ≠ .eof) : (expect k).Reads k := by
  refine expect_reads_of (by simpa [Expected.admits] using hk) fun k' h => ?_
  rw [show k' = k by simpa [Expected.admits, eq_comm] using h]
  exact .token

theorem expect_choice_reads {n : Nonterminal}
    (hp : n.production = .choice (n.first.map Ebnf.token)) (he : Kind.eof ∉ n.first) :
    (expect n).Reads n := by
  refine expect_reads_of (by simpa [Expected.admits] using he) fun k h => .rule ?_
  rw [hp]
  exact .choice (List.mem_map_of_mem (by simpa [Expected.admits] using h)) .token

theorem Reads.rule {x : Parse α} {n : Nonterminal} (h : x.Reads n.production) : x.Reads n :=
  h.mono .rule

theorem Reads.choose {x : Parse α} {g : Ebnf} {gs : List Ebnf} (h : x.Reads g) (hg : g ∈ gs) :
    x.Reads (.choice gs) :=
  h.mono (.choice hg)

theorem Reads.present {x : Parse α} {g : Ebnf} (h : x.Reads g) : x.Reads (.option g) :=
  h.mono .present

theorem Silent.reads {x : Parse α} {g : Ebnf} (h : Silent x) (hg : g.Derives []) : x.Reads g where
  done _ hx := ⟨[], h.tokens_eq hx, hg⟩
  stuck _ hx := absurd hx h.ne_stuck

theorem Silent.absent {x : Parse α} (h : Silent x) (g : Ebnf) : x.Reads (.option g) :=
  h.reads .absent

theorem Reads.join {x : Parse α} {f : α → Parse β} {g g' j : Ebnf} [hg' : g'.Productive]
    (hx : x.Reads g) (hf : ∀ a, (f a).Reads g')
    (hj : ∀ {v w}, g.Derives v → g'.Derives w → j.Derives (v ++ w)) : (x >>= f).Reads j where
  done hp h := by
    obtain ⟨a, r, hr, h⟩ := bind_eq_done.mp h
    obtain ⟨ts, e, hd⟩ := hx.done hp hr
    obtain ⟨us, e', hd'⟩ := (hf a).done (hp.of_append e) h
    exact ⟨ts ++ us, by rw [e, e', List.append_assoc], by rw [List.map_append]; exact hj hd hd'⟩
  stuck hp h := by
    obtain h | ⟨a, r, hr, h⟩ := bind_eq_stuck.mp h
    · obtain ⟨ts, rest, e, hd⟩ := hx.stuck hp h
      obtain ⟨w, hw⟩ := hg'.derives
      exact ⟨ts, rest ++ w, e, by rw [← List.append_assoc]; exact hj hd hw⟩
    · obtain ⟨ts, e, hd⟩ := hx.done hp hr
      obtain ⟨us, rest, e', hd'⟩ := (hf a).stuck (hp.of_append e) h
      exact ⟨ts ++ us, rest, by rw [e, e', List.append_assoc],
        by rw [List.map_append, List.append_assoc]; exact hj hd hd'⟩

theorem Reads.cons {x : Parse α} {f : α → Parse β} {g : Ebnf} {gs : List Ebnf}
    [Ebnf.Productive (.sequence gs)] (hx : x.Reads g) (hf : ∀ a, (f a).Reads (.sequence gs)) :
    (x >>= f).Reads (.sequence (g :: gs)) :=
  hx.join hf .cons

theorem Reads.more {x : Parse α} {f : α → Parse β} {g : Ebnf} (hx : x.Reads g)
    (hf : ∀ a, (f a).Reads (.repeated g)) : (x >>= f).Reads (.repeated g) :=
  hx.join hf .more

theorem Reads.skip {x : Parse α} {g : Ebnf} {gs : List Ebnf} (hx : x.Reads (.sequence gs)) :
    x.Reads (.sequence (.option g :: gs)) :=
  hx.mono (.cons .absent)

/-- The last part of a sequence, after which nothing is left to read. -/
theorem Reads.last {x : Parse α} {g : Ebnf} (hx : x.Reads g) : x.Reads (.sequence [g]) :=
  hx.mono fun hd => by simpa using Ebnf.Derives.cons hd .nil

theorem Silent.then_reads {x : Parse α} {f : α → Parse β} {g : Ebnf} (hx : Silent x)
    (hf : ∀ a, (f a).Reads g) : (x >>= f).Reads g where
  done hp h := by
    obtain ⟨a, r, hr, h⟩ := bind_eq_done.mp h
    rw [hx.tokens_eq hr]
    exact (hf a).done (hp.of_eq (hx.tokens_eq hr)) h
  stuck hp h := by
    obtain h | ⟨a, r, hr, h⟩ := bind_eq_stuck.mp h
    · exact absurd h hx.ne_stuck
    · rw [hx.tokens_eq hr]
      exact (hf a).stuck (hp.of_eq (hx.tokens_eq hr)) h

theorem Reads.then_silent {x : Parse α} {f : α → Parse β} {g : Ebnf} (hx : x.Reads g)
    (hf : ∀ a, Silent (f a)) : (x >>= f).Reads g where
  done hp h := by
    obtain ⟨a, r, hr, h⟩ := bind_eq_done.mp h
    rw [← (hf a).tokens_eq h]
    exact hx.done hp hr
  stuck hp h := by
    obtain h | ⟨a, r, hr, h⟩ := bind_eq_stuck.mp h
    · exact hx.stuck hp h
    · exact absurd h (hf a).ne_stuck

theorem Reads.ite {x y : Parse α} {g : Ebnf} {b : Bool} (hx : x.Reads g) (hy : y.Reads g) :
    (if b then x else y).Reads g := by
  split
  · exact hx
  · exact hy

theorem foldUpTo_reads {e : Expected} {step : α → Parse α} {g : Ebnf}
    (hs : ∀ a, (step a).Reads g) (n : Nat) (a : α) : (foldUpTo e step n a).Reads (.repeated g) := by
  induction n generalizing a with
  | zero => exact (pure_silent a).reads .done
  | succ n ih =>
    rw [foldUpTo_succ]
    exact (sees_silent e).then_reads fun more => .ite ((hs a).more ih) ((pure_silent a).reads .done)

theorem fold_reads {e : Expected} {step : α → Parse α} {g : Ebnf} (hs : ∀ a, (step a).Reads g)
    (a : α) : (fold e step a).Reads (.repeated g) where
  done hp h := (foldUpTo_reads hs _ a).done hp h
  stuck hp h := (foldUpTo_reads hs _ a).stuck hp h

theorem manyUpTo_reads {e : Expected} {item : Parse α} {g : Ebnf} (hi : item.Reads g) (n : Nat) :
    (manyUpTo e item n).Reads (.repeated g) := by
  induction n with
  | zero => exact (pure_silent []).reads .done
  | succ n ih =>
    rw [manyUpTo_succ]
    refine (sees_silent e).then_reads fun more => .ite ?_ ((pure_silent []).reads .done)
    exact hi.more fun a => ih.then_silent fun rest => pure_silent (a :: rest)

theorem many_reads {e : Expected} {item : Parse α} {g : Ebnf} (hi : item.Reads g) :
    (many e item).Reads (.repeated g) where
  done hp h := (manyUpTo_reads hi _).done hp h
  stuck hp h := (manyUpTo_reads hi _).stuck hp h

theorem commaList_reads {e : Expected} {item : Parse α} {g : Ebnf} [g.Productive]
    (hi : item.Reads g) : (commaList e item).Reads (.commaList g) := by
  refine (sees_silent e).then_reads fun more => .ite (.present ?_) ((pure_silent _).absent _)
  refine hi.cons fun first => ?_
  have hnext : (do let _ ← expect Kind.comma; item).Reads (.sequence [Kind.comma, g]) :=
    (expect_reads (by decide)).cons fun _ => hi.last
  exact (many_reads hnext).last.then_silent fun rest => pure_silent _

theorem accept_bind (k : Kind) (f : Bool → Parse α) :
    (accept k >>= f) =
      (do if ← sees k then expect k >>= fun _ => f true else f false) := by
  rw [accept, bind_assoc]
  congr 1
  funext seen
  cases seen <;> simp

theorem inScope_reads {x : Parse α} {g : Ebnf} (hx : x.Reads g) : (inScope x).Reads g :=
  (make_silent _).then_reads fun _ =>
    hx.then_silent fun _ => (make_silent _).bind fun _ => pure_silent _

end Parse

end Crux
