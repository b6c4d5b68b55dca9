import Crux.Proofs.Emit.Names
import Crux.Proofs.Emit.References
import Crux.Proofs.Text.Lines

namespace Crux

open Instr Asm Emit

namespace Label

def Clean : Label → Prop
  | .function name | .epilogue name | .global name | .constant name => '.' ∉ name.toList
  | .inside routine place => '.' ∉ routine.toList ∧ '.' ∉ place.toList
  | .fresh _ => True

instance : DecidablePred Clean
  | .function name | .epilogue name | .global name | .constant name =>
    inferInstanceAs (Decidable ('.' ∉ name.toList))
  | .inside .. => inferInstanceAs (Decidable (_ ∧ _))
  | .fresh _ => inferInstanceAs (Decidable True)

theorem main_iff {l l' : Label} {a b : String} (h : l.render = l'.render)
    (hl : l.initial = initial (.function a)) (hl' : l'.initial = initial (.function b)) :
    a = mainName ↔ b = mainName := by
  have hi := initial_eq h
  rw [hl, hl', initial, initial] at hi
  by_cases ha : a = mainName <;> by_cases hb : b = mainName <;> simp_all

theorem render_function_inj {a b : String} (h : (function a).render = (function b).render) :
    a = b := by
  have hm := main_iff h rfl rfl
  have h := congrArg String.toList h
  rw [toList_function, toList_function] at h
  by_cases ha : a = mainName
  · rw [ha, hm.mp ha]
  · rw [if_neg ha, if_neg (mt hm.mpr ha)] at h
    exact String.toList_inj.mp (List.append_cancel_left h)

theorem render_epilogue_inj {a b : String} (h : (epilogue a).render = (epilogue b).render) :
    a = b := by
  apply render_function_inj
  have h := congrArg String.toList h
  rw [toList_epilogue, toList_epilogue] at h
  exact String.toList_inj.mp (List.append_cancel_right h)

theorem render_function_ne {a b : String} (ha : '.' ∉ a.toList) :
    (function a).render ≠ (epilogue b).render := by
  intro h
  have hm := main_iff (a := a) (b := b) h rfl rfl
  have h := congrArg String.toList h
  rw [toList_epilogue, toList_function, toList_function] at h
  by_cases hmain : a = mainName
  · rw [if_pos hmain, if_pos (hm.mp hmain)] at h
    exact absurd h (by decide)
  · rw [if_neg hmain, if_neg (mt hm.mpr hmain), List.append_assoc] at h
    refine ha ?_
    rw [List.append_cancel_left h]
    simp

theorem render_inside_inj {r p r' p' : String} (hr : '.' ∉ r.toList) (hr' : '.' ∉ r'.toList)
    (h : (inside r p).render = (inside r' p').render) : inside r p = inside r' p' := by
  have h := congrArg String.toList h
  rw [toList_inside, toList_inside] at h
  obtain ⟨hr, hp⟩ := Text.append_cons_inj hr hr' (List.append_cancel_left h)
  rw [String.toList_inj.mp hr, String.toList_inj.mp hp]

theorem render_constant_inj {a b : String} (h : (constant a).render = (constant b).render) :
    a = b := by
  have h := congrArg String.toList h
  rw [toList_constant, toList_constant] at h
  exact String.toList_inj.mp (List.append_cancel_left h)

/-- Labels with the same text are the same. -/
theorem render_inj {l l' : Label} (hl : l.Clean) (hl' : l'.Clean) (h : l.render = l'.render) :
    l = l' := by
  have hi := initial_eq h
  cases l with
  | fresh n => exact (eq_fresh_of_render h.symm).symm
  | function a =>
    cases l' with
    | function b => rw [render_function_inj h]
    | epilogue b => exact absurd h (render_function_ne hl)
    | _ => grind [initial]
  | epilogue a =>
    cases l' with
    | function b => exact absurd h.symm (render_function_ne hl')
    | epilogue b => rw [render_epilogue_inj h]
    | _ => grind [initial]
  | inside r p =>
    cases l' with
    | fresh n => exact eq_fresh_of_render h
    | inside r' p' => exact render_inside_inj hl.1 hl'.1 h
    | _ => grind [initial]
  | global a =>
    cases l' with
    | global b => rw [render_global_inj h]
    | _ => grind [initial]
  | constant a =>
    cases l' with
    | constant b => rw [render_constant_inj h]
    | _ => grind [initial]

end Label

def Label.IsRoutine : Label → Prop
  | .function name => name ∈ Builtin.all.map Builtin.name
  | .inside .. => True
  | _ => False

instance : DecidablePred Label.IsRoutine
  | .function name => inferInstanceAs (Decidable (name ∈ _))
  | .inside .. => inferInstanceAs (Decidable True)
  | .epilogue _ | .global _ | .constant _ | .fresh _ => inferInstanceAs (Decidable False)

def Line.head? : Line → Option Label
  | .label (.fresh _) => none
  | .label l => some l
  | _ => none

theorem Line.head?_eq_none {line : Line} (h : line.IsCode fun _ => False) : line.head? = none := by
  cases line with
  | label l =>
    cases l with
    | fresh k => rfl
    | _ => exact h.elim
  | _ => rfl

namespace Node

variable {types : Nat → Option Ty} {root n : Node} {program : Program}

theorem heads_wrap (n : Node) (ls : List Line) :
    (n.wrap ls).filterMap Line.head? = ls.filterMap Line.head? := by
  unfold wrap
  split
  · rw [List.filterMap_cons_none rfl, List.filterMap_append]
    exact List.append_nil _
  · rfl

theorem heads_code (types : Nat → Option Ty) (F : Frame) (n : Node) (l : Nat) :
    (n.code types F l).filterMap Line.head? = [] :=
  List.filterMap_eq_nil_iff.mpr fun line hm =>
    Line.head?_eq_none (closed_code types F n l line hm).1

theorem heads_unitCode (types : Nat → Option Ty) (l : Nat) (n : Node) :
    (n.unitCode types l).filterMap Line.head? = n.heads := by
  cases n with
  | function g f params body =>
    have hending : (ending f.name).filterMap Line.head? = [] := by
      unfold ending
      split <;> rfl
    have hcons (ls : List Line) : (.label (.epilogue f.name) :: ls).filterMap Line.head? =
        .epilogue f.name :: ls.filterMap Line.head? := rfl
    rw [unitCode, heads_wrap, heads]
    refine congrArg (List.cons _) ?_
    rw [List.filterMap_append, List.filterMap_append, heads_code, hcons, List.filterMap_append,
      hending]
    rfl
  | _ => rfl

theorem heads_unitCodeAll (types : Nat → Option Ty) (l : Nat) (items : List Node) :
    (unitCodeAll types l items).filterMap Line.head? = items.flatMap heads := by
  induction items generalizing l with
  | nil => rfl
  | cons n items ih =>
    rw [unitCodeAll, List.filterMap_append, heads_unitCode, ih, List.flatMap_cons]

theorem nodup_heads {items : List Node} (h : ((items.filterMap binds).map Symbol.name).Nodup) :
    (items.flatMap heads).Nodup := by
  induction items with
  | nil => exact .nil
  | cons n items ih =>
    cases n with
    | function g f params body =>
      obtain ⟨hf, hitems⟩ := List.nodup_cons.mp h
      have hne : ∀ l ∈ items.flatMap heads, l ≠ .function f.name ∧ l ≠ .epilogue f.name := by
        intro l hl
        obtain ⟨m, hm, hl⟩ := List.mem_flatMap.mp hl
        cases m with
        | function g' f' params' body' =>
          have hf' : f'.name ≠ f.name := fun e =>
            hf (e ▸ List.mem_map_of_mem (List.mem_filterMap.mpr ⟨_, hm, rfl⟩))
          simp only [heads, List.mem_cons, List.not_mem_nil, or_false] at hl
          obtain rfl | rfl := hl <;> simp [hf']
        | _ => cases hl
      rw [List.flatMap_cons]
      refine List.nodup_append.mpr ⟨by simp [heads], ih hitems, fun l hl l' hl' e => ?_⟩
      subst e
      obtain ⟨hfun, hend⟩ := hne l hl'
      simp only [heads, List.mem_cons, List.not_mem_nil, or_false] at hl
      exact hl.elim hfun hend
    | var | array => exact ih (List.nodup_cons.mp h).2
    | _ => exact ih h

theorem label_mem {l : Label} {ls : List Line} (h : l ∈ ls.filterMap Line.label?) :
    .label l ∈ ls := by
  obtain ⟨line, hline, e⟩ := List.mem_filterMap.mp h
  cases line with
  | label l' =>
    cases e
    exact hline
  | _ => cases e

theorem nodup_of_places {ls : List Line} (hp : (places ls).Nodup)
    (hh : (ls.filterMap Line.head?).Nodup) : (ls.filterMap Line.label?).Nodup := by
  induction ls with
  | nil => exact .nil
  | cons line ls ih =>
    cases line with
    | label l =>
      cases l with
      | fresh k =>
        obtain ⟨hk, hp⟩ := List.nodup_cons.mp hp
        refine List.nodup_cons.mpr ⟨fun hm => hk ?_, ih hp hh⟩
        exact List.mem_filterMap.mpr ⟨_, label_mem hm, rfl⟩
      | _ =>
        obtain ⟨hl, hh⟩ := List.nodup_cons.mp hh
        refine List.nodup_cons.mpr ⟨fun hm => hl ?_, ih hp hh⟩
        exact List.mem_filterMap.mpr ⟨_, label_mem hm, rfl⟩
    | _ => exact ih hp hh

theorem nodup_programCode (types : Nat → Option Ty)
    (h : ((root.children.filterMap binds).map Symbol.name).Nodup) :
    ((root.programCode types).filterMap Line.label?).Nodup := by
  apply nodup_of_places
  · refine List.nodup_iff_count.mpr fun k => ?_
    rw [programCode, places_wrap]
    exact Nat.le_trans (count_unitCodeAll types root.children 0 k)
      (List.nodup_iff_count.mp List.nodup_range' k)
  · rw [programCode, heads_wrap, heads_unitCodeAll]
    exact nodup_heads h

theorem Translated.clean_heads (h : root.Translated types program) :
    ∀ n ∈ root.children, ∀ l ∈ n.heads, ¬ l.IsRoutine ∧ l.Clean := by
  intro n hn l hl
  cases n with
  | function g f params body =>
    have hclean : '.' ∉ f.name.toList := not_mem_of_isWord (h.words _
      (mem_preorder.mpr (.inr ⟨_, hn, mem_preorder_self _⟩)) f List.mem_cons_self)
      (by decide +kernel)
    simp only [heads, List.mem_cons, List.not_mem_nil, or_false] at hl
    obtain rfl | rfl := hl
    · refine ⟨fun hb => ?_, hclean⟩
      obtain ⟨b, hb, e⟩ := List.mem_map.mp hb
      obtain ⟨i, hi, rfl⟩ := List.getElem_of_mem hb
      exact h.accepted.nodup_binds.1 f (List.mem_filterMap.mpr ⟨_, hn, rfl⟩) _
        (List.mem_mapIdx.mpr ⟨i, hi, rfl⟩) e
    · exact ⟨False.elim, hclean⟩
  | _ => cases hl

theorem Translated.nodup_labels (h : root.Translated types program) :
    (((Program.routines ++ program.code).filterMap Line.label?).map Label.render).Nodup := by
  have hroutines : (Program.routines.filterMap Line.label?).Nodup ∧
      ∀ l ∈ Program.routines.filterMap Line.label?, l.IsRoutine ∧ l.Clean := by
    decide +kernel
  have hcode : ∀ l ∈ program.code.filterMap Line.label?, ¬ l.IsRoutine ∧ l.Clean := by
    intro l hl
    rw [h.code] at hl
    have hc := (closed_programCode (P := fun _ => True) types root h.clean_heads (by simp) _
      (label_mem hl)).1
    cases l with
    | fresh k => exact ⟨False.elim, trivial⟩
    | _ => exact hc
  have hclean := List.forall_mem_append.mpr
    ⟨fun l hl => (hroutines.2 l hl).2, fun l hl => (hcode l hl).2⟩
  rw [List.filterMap_append]
  refine List.Nodup.map_on (fun l hl l' hl' => Label.render_inj (hclean l hl) (hclean l' hl')) ?_
  refine List.nodup_append.mpr
    ⟨hroutines.1, h.code ▸ nodup_programCode types h.accepted.nodup_binds.2, ?_⟩
  rintro l hl l' hl' rfl
  exact (hcode l hl').1 (hroutines.2 l hl).1

end Node

theorem Image.target_eq {p : Image} (h : ((p.code.filterMap Line.label?).map Label.render).Nodup)
    {i : Nat} {l : Label} (hi : p.code[i]? = some (.label l)) : p.target l = some i := by
  obtain ⟨hlt, hl⟩ := List.getElem?_eq_some_iff.mp hi
  refine List.findIdx?_eq_some_iff_getElem.mpr ⟨hlt, by simp [hl, Line.defines], fun j hj hd => ?_⟩
  rw [List.map_filterMap] at h
  have hne := List.pairwise_iff_getElem.mp (List.pairwise_filterMap.mp h) j i (by omega) hlt hj
  cases hx : p.code[j] with
  | label l' =>
    have hr : l'.render = l.render := by simpa [hx, Line.defines] using hd
    exact hne _ (by rw [hx]; rfl) _ (by rw [hl]; rfl) hr
  | _ => simp [hx, Line.defines] at hd

end Crux
