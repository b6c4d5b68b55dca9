import Crux.Proofs.Emit.Code
import Crux.Proofs.Machine.Basic
import Crux.Proofs.Semantics

namespace Crux

def Value.word : Value → Word
  | .int v => v.toBitVec
  | .bool b => if b then 1 else 0

theorem Value.word_int {i : Int32} (h : 0 ≤ i.toInt) :
    (Value.int i).word = .ofNat 32 i.toInt.toNat := by
  rw [Value.word, ← BitVec.ofInt_natCast, Int.toNat_of_nonneg h, ← Int32.toInt_toBitVec,
    BitVec.ofInt_toInt]

theorem Value.isScalar_ty (v : Value) : v.ty.isScalar := by
  cases v <;> rfl

namespace Ty

theorem room_of_isScalar {t : Ty} (h : t.isScalar) : t.room = wordSize := by
  cases t with
  | int | float | bool => rfl
  | _ => cases h

theorem room_mod (t : Ty) : t.room % wordSize = 0 := by
  fun_induction room t with
  | case4 extent element ih =>
    rw [Nat.mul_mod, ih]
    rfl
  | _ => rfl

/-- The element of a type under indices: its distance from the beginning, and its type. -/
def at? (t : Ty) : List Nat → Option (Nat × Ty)
  | [] => some (0, t)
  | i :: path =>
    match t with
    | .array extent element =>
      if i < extent then (element.at? path).map fun (o, u) => (i * element.room + o, u) else none
    | _ => none
  termination_by structural path => path

theorem at?_cons {t u : Ty} {i o : Nat} {path : List Nat} (h : t.at? (i :: path) = some (o, u)) :
    ∃ extent element o', t = .array extent element ∧ i < extent ∧
      element.at? path = some (o', u) ∧ o = i * element.room + o' := by
  cases t with
  | array extent element =>
    obtain ⟨hi, h⟩ := Option.ite_none_right_eq_some.mp h
    obtain ⟨⟨o', u⟩, hp, h⟩ := Option.map_eq_some_iff.mp h
    cases h
    exact ⟨extent, element, o', rfl, hi, hp, rfl⟩
  | _ => cases h

theorem at?_append {t element : Ty} {path : List Nat} {o extent i : Nat}
    (h : t.at? path = some (o, .array extent element)) (hi : i < extent) :
    t.at? (path ++ [i]) = some (o + i * element.room, element) := by
  induction path generalizing t o with
  | nil =>
    cases h
    simp [at?, hi]
  | cons j path ih =>
    obtain ⟨m, inner, o', rfl, hj, hp, rfl⟩ := at?_cons h
    simp [at?, hj, ih hp, Nat.add_assoc]

theorem at?_le {t u : Ty} {path : List Nat} {o : Nat} (h : t.at? path = some (o, u)) :
    o + u.room ≤ t.room := by
  induction path generalizing t o with
  | nil =>
    cases h
    omega
  | cons i path ih =>
    obtain ⟨extent, element, o', rfl, hi, hp, rfl⟩ := at?_cons h
    have := ih hp
    have := Nat.mul_le_mul_right element.room hi
    rw [Nat.succ_mul] at this
    rw [room]
    omega

theorem at?_mod {t u : Ty} {path : List Nat} {o : Nat} (h : t.at? path = some (o, u)) :
    o % wordSize = 0 := by
  induction path generalizing t o with
  | nil =>
    cases h
    rfl
  | cons i path ih =>
    obtain ⟨extent, element, o', rfl, hi, hp, rfl⟩ := at?_cons h
    rw [Nat.add_mod, ih hp, Nat.mul_mod, room_mod]
    rfl

theorem at?_ne {t u v : Ty} {path path' : List Nat} {o o' : Nat} (h : t.at? path = some (o, u))
    (h' : t.at? path' = some (o', v)) (hu : u.isScalar) (hv : v.isScalar) (hne : path ≠ path') :
    o ≠ o' := by
  induction path generalizing t o o' path' with
  | nil =>
    cases h
    cases path' with
    | nil => exact absurd rfl hne
    | cons i path' =>
      obtain ⟨extent, element, o', rfl, -⟩ := at?_cons h'
      cases hu
  | cons i path ih =>
    obtain ⟨extent, element, x, rfl, hi, hp, rfl⟩ := at?_cons h
    cases path' with
    | nil =>
      cases h'
      cases hv
    | cons j path' =>
      obtain ⟨_, _, y, e, hj, hq, rfl⟩ := at?_cons h'
      cases e
      have hx := at?_le hp
      have hy := at?_le hq
      rw [room_of_isScalar hu, wordSize] at hx
      rw [room_of_isScalar hv, wordSize] at hy
      obtain hij | rfl | hij := Nat.lt_trichotomy i j
      · have := Nat.mul_le_mul_right element.room hij
        rw [Nat.succ_mul] at this
        omega
      · have := ih hp hq (fun e => hne (by rw [e]))
        omega
      · have := Nat.mul_le_mul_right element.room hij
        rw [Nat.succ_mul] at this
        omega

end Ty

def Frame.locate (f : Frame) (storage : Label → Word) (fp : Word) (s : Symbol) : Word :=
  match f.address .t1 s with
  | .la _ label => storage label
  | .addi _ _ offset => fp + .ofInt 32 offset
  | _ => 0

theorem Frame.exec_address (f : Frame) (storage : Label → Word) (s : Symbol) (c : Core) :
    (f.address .t1 s).exec storage c = some (c.set .t1 (f.locate storage (c.regs .fp) s), none) := by
  unfold locate
  induction f with
  | nil => rfl
  | cons r rest ih =>
    unfold address
    split
    · rfl
    · split
      · rfl
      · exact ih

/-- The memory holds the numbers and truth values of the store, each variable where the frame finds
it. -/
def Frame.Holds (f : Frame) (storage : Label → Word) (fp : Word) (vars : List Symbol) (S : Store)
    (mem : Word → Word) : Prop :=
  ∀ s ∈ vars, ∀ path o (v : Value), s.ty.at? path = some (o, v.ty) →
    mem (f.locate storage fp s + .ofNat 32 o) = (S s.id path).word

/-- Variables in memory, and the area for operands between two addresses. No variable reaches
into another one, or into that area. -/
structure Layout (f : Frame) (storage : Label → Word) where
  fp : Word
  vars : List Symbol
  low : Nat
  top : Nat
  unique : ∀ s ∈ vars, ∀ u ∈ vars, s.id = u.id → s = u
  aligned : ∀ s ∈ vars, Aligned (f.locate storage fp s)
  fits : ∀ s ∈ vars, (f.locate storage fp s).toNat + s.ty.room ≤ 2 ^ 32
  apart : ∀ s ∈ vars, ∀ u ∈ vars, s ≠ u →
    (f.locate storage fp s).toNat + s.ty.room ≤ (f.locate storage fp u).toNat ∨
      (f.locate storage fp u).toNat + u.ty.room ≤ (f.locate storage fp s).toNat
  clear : ∀ s ∈ vars, (f.locate storage fp s).toNat + s.ty.room ≤ low ∨
    top ≤ (f.locate storage fp s).toNat

namespace Layout

variable {f : Frame} {storage : Label → Word} (L : Layout f storage)

def address (s : Symbol) (o : Nat) : Word := f.locate storage L.fp s + .ofNat 32 o

theorem address_add (s : Symbol) (o o' : Nat) :
    L.address s (o + o') = L.address s o + .ofNat 32 o' := by
  rw [address, address, BitVec.ofNat_add, BitVec.add_assoc]

def Holds (S : Store) (mem : Word → Word) : Prop := f.Holds storage L.fp L.vars S mem

variable {L} {s u : Symbol} {path path' : List Nat} {o o' : Nat} {t t' : Ty}

theorem toNat_address (hs : s ∈ L.vars) (h : s.ty.at? path = some (o, t)) (ht : t.isScalar) :
    (L.address s o).toNat = (f.locate storage L.fp s).toNat + o := by
  have ho := Ty.at?_le h
  have hf := L.fits s hs
  rw [Ty.room_of_isScalar ht, Ty.wordSize] at ho
  rw [address, BitVec.toNat_add, BitVec.toNat_ofNat]
  omega

theorem aligned_address (hs : s ∈ L.vars) (h : s.ty.at? path = some (o, t)) (ht : t.isScalar) :
    Aligned (L.address s o) := by
  rw [Aligned, toNat_address hs h ht, Nat.add_mod, L.aligned s hs, Ty.at?_mod h]
  rfl

theorem address_clear (hs : s ∈ L.vars) (h : s.ty.at? path = some (o, t)) (ht : t.isScalar) :
    (L.address s o).toNat < L.low ∨ L.top ≤ (L.address s o).toNat := by
  have ho := Ty.at?_le h
  have hc := L.clear s hs
  rw [Ty.room_of_isScalar ht, Ty.wordSize] at ho
  rw [toNat_address hs h ht]
  omega

theorem address_ne (hs : s ∈ L.vars) (hu : u ∈ L.vars) (h : s.ty.at? path = some (o, t))
    (h' : u.ty.at? path' = some (o', t')) (ht : t.isScalar) (ht' : t'.isScalar)
    (hne : ¬ (s.id = u.id ∧ path = path')) : L.address s o ≠ L.address u o' := by
  intro e
  have e := congrArg BitVec.toNat e
  rw [toNat_address hs h ht, toNat_address hu h' ht'] at e
  have ho := Ty.at?_le h
  have ho' := Ty.at?_le h'
  rw [Ty.room_of_isScalar ht, Ty.wordSize] at ho
  rw [Ty.room_of_isScalar ht', Ty.wordSize] at ho'
  by_cases hsu : s = u
  · subst hsu
    exact Ty.at?_ne h h' ht ht' (fun e => hne ⟨rfl, e⟩) (by omega)
  · have := L.apart s hs u hu hsu
    omega

theorem Holds.of_outside {S : Store} {mem mem' : Word → Word} (h : L.Holds S mem)
    (hm : ∀ a : Word, a.toNat < L.low ∨ L.top ≤ a.toNat → mem' a = mem a) : L.Holds S mem' := by
  intro s hs path o v ho
  show mem' (L.address s o) = _
  rw [hm _ (address_clear hs ho v.isScalar_ty)]
  exact h s hs path o v ho

theorem Holds.set {S : Store} {c : Core} {p : Place} {v : Value} (h : L.Holds S c.mem)
    (hs : p.symbol ∈ L.vars) (hp : p.symbol.ty.at? p.path = some (o, v.ty)) :
    L.Holds (S.set p v) (c.write (L.address p.symbol o) v.word).mem := by
  intro u hu path' o' v' ho'
  show (c.write _ _).mem (L.address u o') = _
  rw [Core.mem_write, Store.set]
  by_cases hc : u.id = p.symbol.id ∧ path' = p.path
  · obtain ⟨hid, rfl⟩ := hc
    obtain rfl := L.unique u hu _ hs hid
    rw [hp] at ho'
    obtain ⟨rfl, -⟩ := Prod.mk.inj (Option.some.inj ho')
    rw [if_pos rfl, if_pos ⟨rfl, rfl⟩]
  · rw [if_neg (address_ne hu hs ho' hp v'.isScalar_ty v.isScalar_ty hc), if_neg hc]
    exact h u hu path' o' v' ho'

end Layout

end Crux
