import Crux.Emit.Node

/-! What steps add to the program under construction. They keep the lines that are there, and what
they add does not depend on them: also the prologue of a function, which is inserted behind the line
whose place was remembered, comes to stand among the new lines. -/

namespace Crux

structure Added (α : Type) where
  code : List Line
  data : List Datum
  labels : Nat
  frame : Frame
  outcome : Except EmitFault α

def Added.behind {α : Type} (e : Added α) (code : List Line) (data : List Datum) :
    EStateM.Result EmitFault Assembly α :=
  match e.outcome with
  | .ok a => .ok a ⟨⟨code ++ e.code, data ++ e.data, e.labels⟩, e.frame⟩
  | .error fault => .error fault ⟨⟨code ++ e.code, data ++ e.data, e.labels⟩, e.frame⟩

/-- Lines that are inserted behind a line of the code stand between it and those after it. -/
theorem Program.insert?_behind (p : Program) (before after new : List Line) (l : Line)
    (h : p.code = before ++ l :: after) :
    p.insert? (before.length + 1) new = some { p with code := before ++ l :: (new ++ after) } := by
  have hpos : before.length + 1 = (before ++ [l]).length := by simp
  have hcode : p.code = (before ++ [l]) ++ after := by simp [h]
  rw [insert?, hcode, hpos, if_pos (by simp), List.take_left' rfl, List.drop_left' rfl]
  simp

namespace Emit

variable {α β : Type}

/-- From a number of labels and in a frame, the step adds this to every program. -/
def Adds (x : Emit α) (labels : Nat) (f : Frame) (e : Added α) : Prop :=
  ∀ code data, x ⟨⟨code, data, labels⟩, f⟩ = e.behind code data

variable {x : Emit α} {g : α → Emit β} {body : Emit Unit} {a : α} {k : Nat} {f : Frame}
  {fault : EmitFault}

theorem bind_place (l : Line) (g : Nat → Emit α) (p : Program) (f : Frame) :
    (place l >>= g) ⟨p, f⟩ = g p.code.length ⟨p.append [l], f⟩ := by
  show g ((p.code ++ [l]).length - 1) _ = _
  rw [List.length_append]
  rfl

theorem insert_eq {p q : Program} {pos : Nat} {new : List Line} (h : p.insert? pos new = some q)
    (f : Frame) : insert pos new ⟨p, f⟩ = .ok () ⟨q, f⟩ := by
  simp only [insert, h]

namespace Adds

theorem fail (fault : EmitFault) :
    Adds (fail fault : Emit α) k f ⟨[], [], k, f, .error fault⟩ := by
  intro code data
  rw [Added.behind, List.append_nil, List.append_nil]
  rfl

theorem bind {e : Added α} {e' : Added β} (hx : Adds x k f e) (h : e.outcome = .ok a)
    (hg : Adds (g a) e.labels e.frame e') :
    Adds (x >>= g) k f { e' with code := e.code ++ e'.code, data := e.data ++ e'.data } := by
  intro code data
  show EStateM.bind x g _ = _
  rw [EStateM.bind, hx, Added.behind, h]
  show g a _ = _
  rw [hg, Added.behind, Added.behind, List.append_assoc, List.append_assoc]

theorem bind_error {e : Added α} (hx : Adds x k f e) (h : e.outcome = .error fault) :
    Adds (x >>= g) k f ⟨e.code, e.data, e.labels, e.frame, .error fault⟩ := by
  intro code data
  show EStateM.bind x g _ = _
  rw [EStateM.bind, hx, Added.behind, h]
  rfl

theorem headed_error {e : Added Unit} (hx : Adds body k f e) (h : e.outcome = .error fault)
    (l : Line) :
    Adds (headed l body) k f ⟨l :: e.code, e.data, e.labels, e.frame, .error fault⟩ := by
  intro code data
  rw [Emit.headed, bind_place]
  show EStateM.bind body _ _ = _
  rw [EStateM.bind, Program.append, hx, Added.behind, h, Added.behind, List.append_assoc]
  rfl

theorem headed {e : Added Unit} (hx : Adds body k f e) (h : e.outcome = .ok ()) (l : Line) :
    Adds (headed l body) k f ⟨l :: (Asm.prologue e.frame.size.toNat ++ e.code), e.data, e.labels,
      e.frame, .ok e.frame⟩ := by
  intro code data
  rw [Emit.headed, bind_place]
  show EStateM.bind body _ _ = _
  rw [EStateM.bind, Program.append, hx, Added.behind, h]
  -- The body has only added lines, so the place behind the first line is still where it was.
  have hplace := Program.insert?_behind ⟨code ++ [l] ++ e.code, data ++ e.data, e.labels⟩ code e.code
    (Asm.prologue e.frame.size.toNat) l (by simp)
  show EStateM.bind (insert (code.length + 1) (Asm.prologue e.frame.size.toNat)) _ _ = _
  rw [EStateM.bind, insert_eq hplace]
  rfl

end Adds

/-- From a number of labels and in a frame, the step ends well. It adds these lines and data to
every program, with these labels and this frame in the end. -/
structure Gives (x : Emit α) (labels : Nat) (f : Frame) (code : List Line) (data : List Datum)
    (labels' : Nat) (a : α) (f' : Frame) : Prop where
  adds : Adds x labels f ⟨code, data, labels', f', .ok a⟩

variable {b : β} {k' k'' : Nat} {f' f'' : Frame} {ls ls' : List Line} {d d' : List Datum}

namespace Gives

theorem run_eq (h : Gives x k f ls d k' a f') (code : List Line) (data : List Datum) :
    x ⟨⟨code, data, k⟩, f⟩ = .ok a ⟨⟨code ++ ls, data ++ d, k'⟩, f'⟩ :=
  h.adds code data

theorem unique {a' : α} (h : Gives x k f ls d k' a f') (h' : Gives x k f ls' d' k'' a' f'') :
    ls = ls' ∧ k' = k'' := by
  have e := (h.run_eq [] []).symm.trans (h'.run_eq [] [])
  obtain ⟨-, e⟩ := EStateM.Result.ok.inj e
  obtain ⟨hcode, -, hlabels⟩ := Program.mk.inj (Assembly.mk.inj e).1
  exact ⟨hcode, hlabels⟩

theorem silent (h : ∀ code data, x ⟨⟨code, data, k⟩, f⟩ = .ok a ⟨⟨code, data, k'⟩, f'⟩) :
    Gives x k f [] [] k' a f' := by
  refine ⟨fun code data => ?_⟩
  rw [h, Added.behind, List.append_nil, List.append_nil]

theorem pure (a : α) : Gives (pure a) k f [] [] k a f := silent fun _ _ => rfl

theorem bind (hx : Gives x k f ls d k' a f') (hg : Gives (g a) k' f' ls' d' k'' b f'') :
    Gives (x >>= g) k f (ls ++ ls') (d ++ d') k'' b f'' :=
  ⟨hx.adds.bind rfl hg.adds⟩

theorem lines (ls : List Line) : Gives (lines ls) k f ls [] k () f := by
  refine ⟨fun code data => ?_⟩
  rw [Added.behind, List.append_nil]
  rfl

theorem line (l : Line) : Gives (line l) k f [l] [] k () f := lines [l]

theorem instr (i : Instr) : Gives (instr i) k f [.plain i] [] k () f := lines _

theorem data (d : List Datum) : Gives (data d) k f [] d k () f := by
  refine ⟨fun code data => ?_⟩
  rw [Added.behind, List.append_nil]
  rfl

theorem freshLabel : Gives freshLabel k f [] [] (k + 1) (.fresh k) f := silent fun _ _ => rfl

theorem frame : Gives frame k f [] [] k f f := silent fun _ _ => rfl

theorem setFrame (f' : Frame) : Gives (setFrame f') k f [] [] k () f' := silent fun _ _ => rfl

theorem thenSet (hx : Gives x k f ls d k' a f') (f'' : Frame) :
    Gives (x >>= fun _ => Emit.setFrame f'') k f ls d k' () f'' := by
  have h := hx.bind (g := fun _ => Emit.setFrame f'') (setFrame f'')
  rwa [List.append_nil, List.append_nil] at h

theorem headed (h : Gives body k f ls d k' () f') (l : Line) :
    Gives (headed l body) k f (l :: (Asm.prologue f'.size.toNat ++ ls)) d k' f' f' :=
  ⟨h.adds.headed rfl l⟩

end Gives

end Emit

end Crux
