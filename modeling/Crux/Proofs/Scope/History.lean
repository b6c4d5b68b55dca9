import Mathlib.Data.List.Induction
import Mathlib.Data.List.Nodup
import Crux.Proofs.Scope.Environment

namespace Crux

inductive ScopeOp
  | push
  | pop
  | declare : (name : String) → ScopeOp
  | resolve : (name : String) → ScopeOp
  | placeholder : (name message : String) → ScopeOp
  | setType : Binding → Ty → ScopeOp

namespace ScopeOp

def run (s : Scopes) : ScopeOp → Scopes
  | .push => s.push
  | .pop => s.pop
  | .declare name =>
    match s.declare name with
    | .ok (_, s') => s'
    | .error _ => s
  | .resolve _ => s
  | .placeholder name message => (s.placeholder name message).2
  | .setType b t => s.setType b t

def Fails (s : Scopes) : ScopeOp → Prop
  | .declare name => ∃ e, s.declare name = .error e
  | .resolve name => ∃ e, s.resolve name = .error e
  | .setType b _ => (s.type? b).isSome
  | _ => False

def made? (s : Scopes) : ScopeOp → Option Binding
  | .declare name => (s.declare name).toOption.map Prod.fst
  | .placeholder name message => some (s.placeholder name message).1
  | _ => none

def depth (d : Nat) : ScopeOp → Nat
  | .push => d + 1
  | .pop => d - 1
  | _ => d

def depthAll (d : Nat) (ops : List ScopeOp) : Nat := ops.foldl depth d

inductive Balanced : List ScopeOp → Prop
  | nil : Balanced []
  | plain : op ≠ .push → op ≠ .pop → Balanced ops → Balanced (op :: ops)
  | block {inner ops : List ScopeOp} :
      Balanced inner → Balanced ops → Balanced (.push :: (inner ++ .pop :: ops))

def builtins : List ScopeOp :=
  (Builtin.all.mapIdx fun i b => [.declare b.name, .setType ⟨i, b.name⟩ b.ty]).flatten

@[simp] theorem depthAll_nil (d : Nat) : depthAll d [] = d := rfl

theorem depthAll_append (d : Nat) (ops ops' : List ScopeOp) :
    depthAll d (ops ++ ops') = depthAll (depthAll d ops) ops' :=
  List.foldl_append

end ScopeOp

namespace Scopes

def after (s : Scopes) (ops : List ScopeOp) : Scopes := ops.foldl ScopeOp.run s

def made (s : Scopes) : List ScopeOp → List Binding
  | [] => []
  | op :: ops => (op.made? s).toList ++ (op.run s).made ops

def start (builtins : Bool) : Scopes := if builtins then withBuiltins else empty

def past (builtins : Bool) : List ScopeOp := if builtins then ScopeOp.builtins else []

/-- In the history, the name was declared as the symbol in a scope at the depth, and this scope has
not been closed since: the depth has not been less. -/
def Declared (ops : List ScopeOp) (name : String) (b : Binding) (d : Nat) : Prop :=
  ∃ before since s, ops = before ++ .declare name :: since ∧
    (empty.after before).declare name = .ok (b, s) ∧ ScopeOp.depthAll 0 before = d ∧
    ∀ part, part <+: since → d ≤ ScopeOp.depthAll d part

/-- The scopes are what the history has made of the empty ones. -/
structure FollowsHistory (ops : List ScopeOp) (s : Scopes) : Prop where
  /-- A name cannot be declared exactly if it was declared in the innermost scope. -/
  declare : ∀ name, ScopeOp.Fails s (.declare name) ↔
    ∃ b, Declared ops name b (ScopeOp.depthAll 0 ops)
  /-- A name is looked up in the innermost of the open scopes that it was declared in. -/
  resolve : ∀ name b, s.resolve name = .ok b ↔
    ∃ d, Declared ops name b d ∧ ∀ b' d', Declared ops name b' d' → d' ≤ d
  unresolved : ∀ name, ScopeOp.Fails s (.resolve name) ↔ ∀ b d, ¬ Declared ops name b d
  /-- Behind a block, every name is found as it was found before. -/
  block : ∀ inner, ScopeOp.Balanced inner → ∀ name,
    (s.after (.push :: (inner ++ [.pop]))).resolve name = s.resolve name
  /-- Symbols are numbered in the order in which they are made. -/
  numbers : (empty.made ops).map Binding.id = List.range (empty.made ops).length
  /-- Failures change nothing, and placeholders are in no scope. -/
  failed : ∀ op, ScopeOp.Fails s op → op.run s = s
  placed : ∀ name message, (ScopeOp.run s (.placeholder name message)).chain = s.chain
  /-- As many scopes are open as the history says, and the outermost one only grows. -/
  depth : s.depth = ScopeOp.depthAll 0 ops
  outermost : ∀ later, s.outermost <+: (s.after later).outermost
  /-- The type that a symbol is given first stays. -/
  typed : ∀ b ∈ empty.made ops, ∀ t later,
    (s.after (.setType b t :: later)).type? b = some ((s.type? b).getD t)

theorem after_append (s : Scopes) (ops ops' : List ScopeOp) :
    s.after (ops ++ ops') = (s.after ops).after ops' :=
  List.foldl_append

theorem chain_eq (s : Scopes) : s.chain = s.innermost :: s.chain.tail := by
  obtain ⟨outermost, inner, types⟩ := s
  cases inner <;> rfl

theorem length_chain (s : Scopes) : s.chain.length = s.depth + 1 := by simp [chain, depth]

theorem declare_eq_error_iff {s : Scopes} {name : String} :
    (∃ e, s.declare name = .error e) ↔ ∃ b ∈ s.innermost, b.name = name := by
  have hsome : (s.innermost.find? name).isSome ↔ ∃ b ∈ s.innermost, b.name = name := by
    simp [Scope.find?]
  rw [← hsome, declare]
  split <;> simp_all

section Levels

def level : List Scope → Nat → Scope
  | [], _ => []
  | scope :: outer, d => if d = outer.length then scope else level outer d

@[simp] theorem level_head (scope : Scope) (outer : List Scope) :
    level (scope :: outer) outer.length = scope :=
  if_pos rfl

theorem level_tail {outer : List Scope} {d : Nat} (h : d ≠ outer.length) (scope : Scope) :
    level (scope :: outer) d = level outer d :=
  if_neg h

theorem level_ge {chain : List Scope} {d : Nat} (h : chain.length ≤ d) : level chain d = [] := by
  induction chain with
  | nil => rfl
  | cons scope outer ih =>
    rw [List.length_cons] at h
    rw [level_tail (by omega), ih (by omega)]

theorem lt_of_mem_level {chain : List Scope} {d : Nat} {b : Binding} (h : b ∈ level chain d) :
    d < chain.length := by
  refine Nat.not_le.mp fun hd => ?_
  rw [level_ge hd] at h
  cases h

theorem level_push (chain : List Scope) (d : Nat) : level ([] :: chain) d = level chain d := by
  by_cases hd : d = chain.length
  · rw [hd, level_head, level_ge (Nat.le_refl _)]
  · rw [level_tail hd]

theorem level_innermost (s : Scopes) : level s.chain s.depth = s.innermost := by
  have hd : s.depth = s.chain.tail.length := by simp [length_chain]
  rw [hd, chain_eq, List.tail_cons, level_head]

theorem find?_eq_some_iff {scope : Scope} (hn : (scope.map Binding.name).Nodup) {name : String}
    {b : Binding} : scope.find? name = some b ↔ b ∈ scope ∧ b.name = name := by
  constructor
  · intro h
    exact ⟨List.mem_of_find?_eq_some h, by simpa using List.find?_some h⟩
  · rintro ⟨hb, rfl⟩
    cases hf : scope.find? b.name with
    | none =>
      have hnone : ∀ c ∈ scope, c.name ≠ b.name := by simpa [Scope.find?] using hf
      exact absurd rfl (hnone b hb)
    | some c =>
      have hname : c.name = b.name := by simpa using List.find?_some hf
      rw [List.inj_on_of_nodup_map hn (List.mem_of_find?_eq_some hf) hb hname]

theorem findSome?_eq_some_iff {chain : List Scope} {name : String}
    (hn : ∀ d, ((level chain d).map Binding.name).Nodup) {b : Binding} :
    chain.findSome? (·.find? name) = some b ↔
      ∃ d, (b ∈ level chain d ∧ b.name = name) ∧
        ∀ b' d', b' ∈ level chain d' ∧ b'.name = name → d' ≤ d := by
  induction chain with
  | nil => simp [level]
  | cons scope outer ih =>
    have hscope := level_head scope outer ▸ hn outer.length
    have houter : ∀ d, ((level outer d).map Binding.name).Nodup := by
      intro d
      obtain hd | hd := Nat.lt_or_ge d outer.length
      · exact level_tail (Nat.ne_of_lt hd) scope ▸ hn d
      · rw [level_ge hd]
        exact .nil
    rw [List.findSome?_cons]
    cases hf : scope.find? name with
    | some c =>
      -- The name is in the first scope, which is deeper than all others.
      have hc := level_head scope outer ▸ (find?_eq_some_iff hscope).mp hf
      constructor
      · intro h
        cases h
        exact ⟨outer.length, hc, fun b' d' hb' => Nat.le_of_lt_succ (lt_of_mem_level hb'.1)⟩
      · rintro ⟨d, hb, hmax⟩
        have hd : d = outer.length :=
          Nat.le_antisymm (Nat.le_of_lt_succ (lt_of_mem_level hb.1)) (hmax c _ hc)
        rw [hd, level_head] at hb
        exact hf.symm.trans ((find?_eq_some_iff hscope).mpr hb)
    | none =>
      have hnone : ∀ b ∈ scope, b.name ≠ name := by simpa [Scope.find?] using hf
      have hiff (b : Binding) (d : Nat) : b ∈ level (scope :: outer) d ∧ b.name = name ↔
          b ∈ level outer d ∧ b.name = name := by
        refine and_congr_left fun e => ?_
        by_cases hd : d = outer.length
        · subst hd
          rw [level_head, level_ge (Nat.le_refl _)]
          exact ⟨fun hb => absurd e (hnone b hb), fun hb => by cases hb⟩
        · rw [level_tail hd]
      simp only [hiff]
      exact ih houter

theorem mem_level_iff {chain : List Scope} {b : Binding} :
    (∃ d, b ∈ level chain d) ↔ ∃ scope ∈ chain, b ∈ scope := by
  induction chain with
  | nil => simp [level]
  | cons scope outer ih =>
    simp only [List.mem_cons, or_and_right, exists_or, exists_eq_left, ← ih]
    constructor
    · rintro ⟨d, hb⟩
      by_cases hd : d = outer.length
      · subst hd
        exact .inl (level_head scope outer ▸ hb)
      · exact .inr ⟨d, level_tail hd scope ▸ hb⟩
    · rintro (hb | ⟨d, hb⟩)
      · exact ⟨outer.length, (level_head scope outer).symm ▸ hb⟩
      · exact ⟨d, (level_tail (Nat.ne_of_lt (lt_of_mem_level hb)) scope).symm ▸ hb⟩

end Levels

section Declared

variable {ops : List ScopeOp} {op : ScopeOp} {name : String} {b : Binding} {d : Nat}

theorem Declared.depth_le (h : Declared ops name b d) : d ≤ ScopeOp.depthAll 0 ops := by
  obtain ⟨before, since, s, rfl, -, rfl, hsince⟩ := h
  rw [ScopeOp.depthAll_append]
  exact hsince since (List.prefix_refl since)

theorem Declared.name_eq (h : Declared ops name b d) : b.name = name := by
  obtain ⟨before, since, s, -, hdecl, -, -⟩ := h
  rw [(declare_eq_ok_iff.mp hdecl).2.1]

/-- What one more operation changes: it may close the scope, or declare the name itself. -/
theorem declared_concat : Declared (ops ++ [op]) name b d ↔
    Declared ops name b d ∧ d ≤ op.depth (ScopeOp.depthAll 0 ops) ∨
      op = .declare name ∧ (∃ s, (empty.after ops).declare name = .ok (b, s)) ∧
        ScopeOp.depthAll 0 ops = d := by
  constructor
  · rintro ⟨before, since, s, e, hdecl, hd, hsince⟩
    obtain rfl | ⟨since, last, rfl⟩ := List.eq_nil_or_concat since
    · obtain ⟨rfl, he⟩ := List.append_inj' e rfl
      exact .inr ⟨by simpa using he, ⟨s, hdecl⟩, hd⟩
    · rw [List.concat_eq_append, ← List.cons_append, ← List.append_assoc] at e
      obtain ⟨rfl, he⟩ := List.append_inj' e rfl
      obtain rfl : op = last := by simpa using he
      rw [List.concat_eq_append] at hsince
      refine .inl ⟨⟨before, since, s, rfl, hdecl, hd, fun part hpart => ?_⟩, ?_⟩
      · exact hsince part (hpart.trans (List.prefix_append _ _))
      · have hlast := hsince _ (List.prefix_refl _)
        rw [ScopeOp.depthAll_append] at hlast
        rw [ScopeOp.depthAll_append, hd]
        exact hlast
  · rintro (⟨⟨before, since, s, rfl, hdecl, rfl, hsince⟩, hle⟩ | ⟨rfl, ⟨s, hdecl⟩, hd⟩)
    · refine ⟨before, since ++ [op], s, by simp, hdecl, rfl, fun part hpart => ?_⟩
      obtain rfl | hpart := List.prefix_concat_iff.mp hpart
      · rw [ScopeOp.depthAll_append] at hle ⊢
        exact hle
      · exact hsince part hpart
    · refine ⟨ops, [], s, rfl, hdecl, hd, fun part hpart => ?_⟩
      rw [List.prefix_nil.mp hpart]
      exact Nat.le_refl d

structure Represents (ops : List ScopeOp) (chain : List Scope) : Prop where
  length : chain.length = ScopeOp.depthAll 0 ops + 1
  mem : ∀ d b, b ∈ level chain d ↔ Declared ops b.name b d
  nodup : ∀ d, ((level chain d).map Binding.name).Nodup

variable {scope : Scope} {chain outer : List Scope}

theorem Represents.mem_name (h : Represents ops chain) :
    b ∈ level chain d ∧ b.name = name ↔ Declared ops name b d := by
  constructor
  · rintro ⟨hb, rfl⟩
    exact (h.mem d b).mp hb
  · intro hb
    have hname := hb.name_eq
    exact ⟨(h.mem d b).mpr (hname.symm ▸ hb), hname⟩

theorem Represents.keep (h : Represents ops chain)
    (hop : op.depth (ScopeOp.depthAll 0 ops) = ScopeOp.depthAll 0 ops)
    (hnew : ∀ name b s, op = .declare name → (empty.after ops).declare name ≠ .ok (b, s)) :
    Represents (ops ++ [op]) chain := by
  refine ⟨?_, fun d b => ?_, h.nodup⟩
  · rw [ScopeOp.depthAll_append, h.length]
    exact congrArg (· + 1) hop.symm
  · rw [h.mem, declared_concat, hop]
    constructor
    · intro hb
      exact .inl ⟨hb, hb.depth_le⟩
    · rintro (⟨hb, -⟩ | ⟨e, ⟨s, hs⟩, -⟩)
      · exact hb
      · exact absurd hs (hnew b.name b s e)

theorem Represents.push (h : Represents ops chain) :
    Represents (ops ++ [.push]) ([] :: chain) := by
  refine ⟨?_, fun d b => ?_, fun d => level_push chain d ▸ h.nodup d⟩
  · rw [ScopeOp.depthAll_append, List.length_cons, h.length]
    rfl
  · rw [level_push, h.mem, declared_concat]
    constructor
    · intro hb
      exact .inl ⟨hb, Nat.le_succ_of_le hb.depth_le⟩
    · rintro (⟨hb, -⟩ | ⟨e, -⟩)
      · exact hb
      · cases e

theorem Represents.pop (h : Represents ops (scope :: outer)) (hne : outer ≠ []) :
    Represents (ops ++ [.pop]) outer := by
  have hlen : outer.length = ScopeOp.depthAll 0 ops := Nat.succ.inj h.length
  have hpos : 0 < outer.length := List.length_pos_iff.mpr hne
  have hlevel (d : Nat) (hd : d ≠ outer.length) := level_tail hd scope
  refine ⟨?_, fun d b => ?_, fun d => ?_⟩
  · rw [ScopeOp.depthAll_append, ← hlen]
    exact (Nat.sub_add_cancel hpos).symm
  · rw [declared_concat, ← hlen]
    constructor
    · intro hb
      have hlt := lt_of_mem_level hb
      rw [← hlevel d (Nat.ne_of_lt hlt), h.mem] at hb
      exact .inl ⟨hb, Nat.le_sub_one_of_lt hlt⟩
    · rintro (⟨hb, hle⟩ | ⟨e, -⟩)
      · have hlt : d < outer.length := Nat.lt_of_le_pred hpos hle
        rwa [← hlevel d (Nat.ne_of_lt hlt), h.mem]
      · cases e
  · obtain hd | hd := Nat.lt_or_ge d outer.length
    · exact hlevel d (Nat.ne_of_lt hd) ▸ h.nodup d
    · rw [level_ge hd]
      exact .nil

theorem Represents.declare {s : Scopes} (h : Represents ops (scope :: outer))
    (hdecl : (empty.after ops).declare name = .ok (b, s)) (hscope : scope.find? name = none) :
    Represents (ops ++ [.declare name]) ((scope ++ [b]) :: outer) := by
  have hlen : outer.length = ScopeOp.depthAll 0 ops := Nat.succ.inj h.length
  have hname : b.name = name := by rw [(declare_eq_ok_iff.mp hdecl).2.1]
  have hnone : ∀ c ∈ scope, c.name ≠ name := by simpa [Scope.find?] using hscope
  have hmade {c : Binding} : (∃ s, (empty.after ops).declare c.name = .ok (c, s)) ∧ c.name = name ↔
      c = b := by
    constructor
    · rintro ⟨⟨s', hc⟩, e⟩
      rw [e, hdecl] at hc
      cases hc
      rfl
    · rintro rfl
      exact ⟨⟨s, hname.symm ▸ hdecl⟩, hname⟩
  refine ⟨?_, fun d c => ?_, fun d => ?_⟩
  · rw [ScopeOp.depthAll_append, List.length_cons, hlen]
    rfl
  · have hold : Declared ops c.name c d ∧ d ≤ ScopeOp.depthAll 0 ops ↔
        c ∈ level (scope :: outer) d := by
      rw [h.mem]
      exact and_iff_left_of_imp Declared.depth_le
    rw [declared_concat]
    refine Iff.trans ?_ (or_congr hold.symm Iff.rfl)
    by_cases hd : d = outer.length
    · subst hd
      rw [level_head, level_head, List.mem_append, List.mem_singleton, ← hmade]
      refine or_congr Iff.rfl ?_
      simp only [ScopeOp.declare.injEq, hlen, and_true]
      exact ⟨fun hc => ⟨hc.2.symm, hc.1⟩, fun hc => ⟨hc.2, hc.1.symm⟩⟩
    · rw [level_tail hd, level_tail hd]
      refine (or_iff_left ?_).symm
      rintro ⟨-, -, e⟩
      exact hd (e.symm.trans hlen.symm)
  · by_cases hd : d = outer.length
    · have hold := h.nodup outer.length
      subst hd
      rw [level_head] at hold ⊢
      rw [List.map_append, List.map_singleton, List.nodup_append]
      refine ⟨hold, List.nodup_singleton _, ?_⟩
      simpa [hname] using hnone
    · rw [level_tail hd]
      exact level_tail hd scope ▸ h.nodup d

theorem Represents.run (h : Represents ops (empty.after ops).chain) (op : ScopeOp) :
    Represents (ops ++ [op]) (op.run (empty.after ops)).chain := by
  generalize hs : empty.after ops = s at h ⊢
  cases op with
  | push => exact h.push
  | pop =>
    obtain ⟨outermost, inner, types⟩ := s
    cases inner with
    | nil =>
      have hzero : ScopeOp.depthAll 0 ops = 0 := (Nat.succ.inj h.length).symm
      refine h.keep ?_ fun name b s e => by cases e
      rw [hzero]
      rfl
    | cons scope rest => exact Represents.pop h (List.append_ne_nil_of_right_ne_nil rest (by simp))
  | declare name =>
    cases hdecl : s.declare name with
    | ok made =>
      obtain ⟨b, s'⟩ := made
      have hok := declare_eq_ok_iff.mp hdecl
      rw [chain_eq] at h
      rw [ScopeOp.run, hdecl]
      simp only
      rw [hok.2.2, chain_enter]
      exact h.declare (hs.symm ▸ hdecl) hok.1
    | error e =>
      rw [ScopeOp.run, hdecl]
      refine h.keep rfl fun name' b s' e' => ?_
      cases e'
      simp [hs, hdecl]
  | resolve name => exact h.keep rfl fun name b s e => by cases e
  | placeholder name message => exact h.keep rfl fun name b s e => by cases e
  | setType b t =>
    rw [ScopeOp.run, chain_setType]
    exact h.keep rfl fun name b s e => by cases e

theorem represents_after (ops : List ScopeOp) : Represents ops (empty.after ops).chain := by
  induction ops using List.reverseRecOn with
  | nil =>
    refine ⟨rfl, fun d b => ?_, fun d => ?_⟩
    · have hempty : level empty.chain d = [] := level_push [] d
      rw [show empty.after [] = empty from rfl, hempty]
      simp [Declared]
    · rw [show level (empty.after []).chain d = [] from level_push [] d]
      exact .nil
  | append_singleton ops op ih =>
    rw [after_append]
    exact ih.run op

end Declared

section Blocks

theorem run_cases (s : Scopes) (op : ScopeOp) :
    op = .push ∨ op = .pop ∨ (∃ types, op.run s = { s with types := types }) ∨
      ∃ types b, op.run s = { s with types := types }.enter b := by
  cases op with
  | push => exact .inl rfl
  | pop => exact .inr (.inl rfl)
  | declare name =>
    cases hdecl : s.declare name with
    | ok made =>
      obtain ⟨b, s'⟩ := made
      obtain ⟨-, -, rfl⟩ := declare_eq_ok_iff.mp hdecl
      refine .inr (.inr (.inr ⟨s.types.push none, b, ?_⟩))
      rw [ScopeOp.run, hdecl]
    | error e =>
      refine .inr (.inr (.inl ⟨s.types, ?_⟩))
      rw [ScopeOp.run, hdecl]
  | resolve name => exact .inr (.inr (.inl ⟨s.types, rfl⟩))
  | placeholder name message => exact .inr (.inr (.inl ⟨s.types.push _, rfl⟩))
  | setType b t =>
    simp only [ScopeOp.run, setType]
    split
    · exact .inr (.inr (.inl ⟨s.types, rfl⟩))
    · exact .inr (.inr (.inl ⟨_, rfl⟩))

/-- Operations inside a scope leave the scopes around it alone. -/
theorem run_inside {s : Scopes} {op : ScopeOp} {scope : Scope} {outer : List Scope}
    (hpush : op ≠ .push) (hpop : op ≠ .pop) (hs : s.inner = scope :: outer) :
    ∃ scope', (op.run s).inner = scope' :: outer ∧ (op.run s).outermost = s.outermost := by
  obtain e | e | ⟨types, e⟩ | ⟨types, b, e⟩ := run_cases s op
  · exact absurd e hpush
  · exact absurd e hpop
  · rw [e]
    exact ⟨scope, hs, rfl⟩
  · simp only [e, enter, hs]
    exact ⟨_, rfl, trivial⟩

theorem after_balanced {ops : List ScopeOp} (h : ScopeOp.Balanced ops) {s : Scopes} {scope : Scope}
    {outer : List Scope} (hs : s.inner = scope :: outer) :
    ∃ scope', (s.after ops).inner = scope' :: outer ∧ (s.after ops).outermost = s.outermost := by
  induction h generalizing s scope outer with
  | nil => exact ⟨scope, hs, rfl⟩
  | plain hpush hpop _ ih =>
    obtain ⟨scope', hi, ho⟩ := run_inside hpush hpop hs
    obtain ⟨scope'', hi', ho'⟩ := ih hi
    exact ⟨scope'', hi', ho'.trans ho⟩
  | @block inner ops _ _ ihinner ih =>
    obtain ⟨scope', hi, ho⟩ := ihinner (s := s.push) rfl
    have hpop : ((s.push.after inner).pop).inner = scope :: outer := by simp [Scopes.pop, hi, hs]
    obtain ⟨scope'', hi', ho'⟩ := ih hpop
    have he : s.after (.push :: (inner ++ .pop :: ops)) = (s.push.after inner).pop.after ops :=
      List.foldl_append
    rw [he]
    exact ⟨scope'', hi', ho'.trans ho⟩

theorem chain_after_block {inner : List ScopeOp} (h : ScopeOp.Balanced inner) (s : Scopes) :
    (s.after (.push :: (inner ++ [.pop]))).chain = s.chain := by
  obtain ⟨scope, hi, ho⟩ := after_balanced h (s := s.push) rfl
  have he : s.after (.push :: (inner ++ [.pop])) = (s.push.after inner).pop := List.foldl_append
  rw [he, chain, pop, hi, ho]
  rfl

theorem resolve_congr {s s' : Scopes} (h : s'.chain = s.chain) (name : String) :
    s'.resolve name = s.resolve name := by
  rw [resolve, resolve, h]

end Blocks

section Symbols

theorem size_setType (s : Scopes) (b : Binding) (t : Ty) :
    (s.setType b t).types.size = s.types.size := by
  unfold setType
  split
  · rfl
  · exact Array.size_setIfInBounds

theorem made?_ids (s : Scopes) (op : ScopeOp) :
    (op.made? s).toList.map Binding.id = List.range' s.types.size (op.made? s).toList.length ∧
      (op.run s).types.size = s.types.size + (op.made? s).toList.length := by
  cases op with
  | declare name =>
    cases hdecl : s.declare name with
    | ok made =>
      obtain ⟨b, s'⟩ := made
      obtain ⟨-, rfl, rfl⟩ := declare_eq_ok_iff.mp hdecl
      simp [ScopeOp.made?, ScopeOp.run, hdecl, Except.toOption, types_enter]
    | error e => simp [ScopeOp.made?, ScopeOp.run, hdecl, Except.toOption]
  | placeholder name message => simp [ScopeOp.made?, ScopeOp.run, placeholder, fresh]
  | setType b t => simp [ScopeOp.made?, ScopeOp.run, size_setType]
  | push => exact ⟨rfl, rfl⟩
  | pop => exact ⟨rfl, rfl⟩
  | resolve name => exact ⟨rfl, rfl⟩

theorem made_ids (s : Scopes) (ops : List ScopeOp) :
    (s.made ops).map Binding.id = List.range' s.types.size (s.made ops).length ∧
      (s.after ops).types.size = s.types.size + (s.made ops).length := by
  induction ops generalizing s with
  | nil => exact ⟨rfl, rfl⟩
  | cons op ops ih =>
    obtain ⟨hids, hsize⟩ := made?_ids s op
    obtain ⟨hids', hsize'⟩ := ih (op.run s)
    constructor
    · rw [made, List.map_append, hids, hids', hsize, List.length_append, List.range'_append_1]
    · rw [made, List.length_append, ← Nat.add_assoc, ← hsize]
      exact hsize'

theorem id_lt_of_made {ops : List ScopeOp} {b : Binding} (h : b ∈ empty.made ops) :
    b.id < (empty.after ops).types.size := by
  obtain ⟨hids, hsize⟩ := made_ids empty ops
  have hb : b.id ∈ (empty.made ops).map Binding.id := List.mem_map_of_mem h
  rw [hids, List.mem_range'_1] at hb
  rw [hsize]
  exact hb.2

theorem outermost_run (s : Scopes) (op : ScopeOp) : s.outermost <+: (op.run s).outermost := by
  obtain rfl | rfl | ⟨types, e⟩ | ⟨types, b, e⟩ := run_cases s op
  · exact List.prefix_refl _
  · exact List.prefix_refl _
  · exact e ▸ List.prefix_refl _
  · rw [e, enter]
    split
    · exact List.prefix_append _ _
    · exact List.prefix_refl _

theorem outermost_after (s : Scopes) (ops : List ScopeOp) :
    s.outermost <+: (s.after ops).outermost := by
  induction ops generalizing s with
  | nil => exact List.prefix_refl _
  | cons op ops ih => exact (outermost_run s op).trans (ih (op.run s))

theorem id_lt_of_type? {s : Scopes} {b : Binding} {t : Ty} (h : s.type? b = some t) :
    b.id < s.types.size := by
  refine Nat.not_le.mp fun hge => ?_
  simp [type?, Array.getElem?_eq_none hge] at h

theorem type?_run {s : Scopes} {b : Binding} {t : Ty} (h : s.type? b = some t) (op : ScopeOp) :
    (op.run s).type? b = some t := by
  have hpush (t? : Option Ty) : { s with types := s.types.push t? }.type? b = some t :=
    (type?_push (id_lt_of_type? h) t?).trans h
  cases op with
  | declare name =>
    cases hdecl : s.declare name with
    | ok made =>
      obtain ⟨c, s'⟩ := made
      obtain ⟨-, -, rfl⟩ := declare_eq_ok_iff.mp hdecl
      simp only [ScopeOp.run, hdecl]
      rw [type?, types_enter]
      exact hpush none
    | error e =>
      simp only [ScopeOp.run, hdecl]
      exact h
  | placeholder name message => exact hpush _
  | setType c u =>
    rw [ScopeOp.run, type?_setType, if_neg (by simp [h])]
    exact h
  | push => exact h
  | pop => exact h
  | resolve name => exact h

theorem type?_after {s : Scopes} {b : Binding} {t : Ty} (h : s.type? b = some t)
    (ops : List ScopeOp) : (s.after ops).type? b = some t := by
  induction ops generalizing s with
  | nil => exact h
  | cons op ops ih => exact ih (type?_run h op)

theorem type?_setType_self {s : Scopes} {b : Binding} (h : b.id < s.types.size) (t : Ty) :
    (s.setType b t).type? b = some ((s.type? b).getD t) := by
  rw [type?_setType]
  cases ht : s.type? b with
  | none => simp [h]
  | some u => simp

end Symbols

theorem run_of_fails {s : Scopes} {op : ScopeOp} (h : op.Fails s) : op.run s = s := by
  cases op with
  | declare name =>
    obtain ⟨e, he⟩ := h
    rw [ScopeOp.run, he]
  | resolve name => rfl
  | setType b t => exact if_pos h
  | push => cases h
  | pop => cases h
  | placeholder name message => cases h

theorem start_eq (builtins : Bool) : start builtins = empty.after (past builtins) := by
  cases builtins with
  | false => rfl
  | true => rfl

section Answers

variable {ops : List ScopeOp} {s : Scopes}

theorem Represents.depth_eq (h : Represents ops s.chain) : s.depth = ScopeOp.depthAll 0 ops :=
  Nat.succ.inj ((length_chain s).symm.trans h.length)

theorem Represents.declare_fails_iff (h : Represents ops s.chain) (name : String) :
    ScopeOp.Fails s (.declare name) ↔ ∃ b, Declared ops name b (ScopeOp.depthAll 0 ops) := by
  refine declare_eq_error_iff.trans (exists_congr fun b => ?_)
  rw [← level_innermost, ← h.depth_eq]
  exact h.mem_name

theorem Represents.resolve_eq_ok_iff (h : Represents ops s.chain) (name : String) (b : Binding) :
    s.resolve name = .ok b ↔
      ∃ d, Declared ops name b d ∧ ∀ b' d', Declared ops name b' d' → d' ≤ d := by
  have hfind : s.resolve name = .ok b ↔ s.chain.findSome? (·.find? name) = some b := by
    rw [resolve]
    cases s.chain.findSome? (·.find? name) <;> simp
  rw [hfind, findSome?_eq_some_iff h.nodup]
  simp only [h.mem_name]

theorem Represents.resolve_fails_iff (h : Represents ops s.chain) (name : String) :
    ScopeOp.Fails s (.resolve name) ↔ ∀ b d, ¬ Declared ops name b d := by
  have hfind : ScopeOp.Fails s (.resolve name) ↔ s.chain.findSome? (·.find? name) = none := by
    rw [ScopeOp.Fails, resolve]
    cases s.chain.findSome? (·.find? name) <;> simp
  have hnone : s.chain.findSome? (·.find? name) = none ↔
      ∀ b, (∃ scope ∈ s.chain, b ∈ scope) → b.name ≠ name := by
    simp only [List.findSome?_eq_none_iff, Scope.find?, List.find?_eq_none, decide_eq_true_eq]
    grind
  rw [hfind, hnone]
  simp only [← mem_level_iff, ← h.mem_name, not_and, forall_exists_index]

end Answers

/-- Whatever operations are made, the answers of the scopes follow from their history. -/
theorem follows_history (builtins : Bool) (ops : List ScopeOp) :
    FollowsHistory (past builtins ++ ops) ((start builtins).after ops) := by
  rw [start_eq, ← after_append]
  generalize past builtins ++ ops = ops
  have h := represents_after ops
  exact
    { declare := h.declare_fails_iff
      resolve := h.resolve_eq_ok_iff
      unresolved := h.resolve_fails_iff
      block := fun inner hinner => resolve_congr (chain_after_block hinner _)
      numbers := List.range_eq_range' ▸ (made_ids empty ops).1
      failed := fun op => run_of_fails
      placed := fun name message => rfl
      depth := h.depth_eq
      outermost := outermost_after _
      typed := fun b hb t => type?_after (type?_setType_self (id_lt_of_made hb) t) }

end Scopes

end Crux
