import StackScript.Proofs.Balance.Accepting
import StackScript.Proofs.Running.Linking

/-!
# States that a run reaches

`Machine.Reaches` says which moments there are in a run, those within calls included: the words of
the main body and of the functions that are active, calls that are about to be made, and host code.
Host code is open: between its calls it does to the world whatever it may.
-/

namespace StackScript

/-- What a machine is about to do, with `room` for calls. -/
inductive Moment
  /-- To run the words from `offset` up to `stop` in a frame. -/
  | code (room ctx stop offset : Nat) (t : Thread)
  /-- To call a script function with the arguments on the stack. -/
  | call (room id parent : Nat) (t : Thread)
  /-- Whatever host code does. -/
  | host (room : Nat) (w : World)

/-- Which calls host code may make: in which worlds, if it was entered in some world, and of which
closures with which arguments. -/
abbrev HostRely := World → World → Closure → List Value → Prop

namespace Machine

variable (m : Machine)

/-- The instruction comes to a call of a script function, whatever calls do. -/
def CallsScript (ctx : Nat) (i : Instr) (t : Thread) (id parent : Nat) (t' : Thread) : Prop :=
  ∀ call : Caller, (m.perform call ctx i).exec t = (call id parent).exec t'

/-- The instruction comes to a call of a host function, whatever calls do. -/
def CallsHost (ctx : Nat) (i : Instr) (t : Thread) (f : FuncValue) (name : String)
    (args : List Value) (t' : Thread) : Prop :=
  ∀ call : Caller, (m.perform call ctx i).exec t = (m.callHost call f name args).exec t'

/-- The word at an offset is a step of the code, which counts: `t'` is the thread then. -/
structure Fetches (stop offset : Nat) (t : Thread) (i : Instr) (t' : Thread) : Prop where
  before : offset < stop
  instr : m.program.instr? offset = some i
  tick : m.tick.exec t = (.ok (), t')

/-- The moments of a run from the world `w`, with the frames of the active functions at each, the
innermost first. -/
inductive Reaches (may : HostRely) (w : World) : List Nat → Moment → Prop
  | start : Reaches may w []
    (.code m.limits.callDepth w.store.frames.size m.program.mainEnd 0 ⟨m.entered w, #[], 0, 0⟩)
  | next {active : List Nat} {room ctx stop offset : Nat} {i : Instr} {t t₁ t₂ : Thread}
    (h : Reaches may w active (.code room ctx stop offset t)) (hi : m.Fetches stop offset t i t₁)
    (hreturn : Balance.isReturn i = false)
    (hstep : (m.perform (m.call room) ctx i).exec t₁ = (.ok (), t₂)) :
    Reaches may w active (.code room ctx stop (offset + 1) t₂)
  | script {active : List Nat} {room ctx stop offset id parent : Nat} {i : Instr} {t t₁ t₂ : Thread}
    (h : Reaches may w active (.code room ctx stop offset t)) (hi : m.Fetches stop offset t i t₁)
    (hcalls : m.CallsScript ctx i t₁ id parent t₂) :
    Reaches may w active (.call room id parent t₂)
  | enter {active : List Nat} {room id parent entry stop frame : Nat} {f : FuncInfo}
    {t t₁ t₂ : Thread} (h : Reaches may w active (.call (room + 1) id parent t))
    (hf : m.program.func id = .ok f) (hentry : f.entry = some entry) (hstop : f.stop = some stop)
    (hdescend : (m.descend f.name).exec t = (.ok (), t₁))
    (hframe : (m.openFrame id parent f).exec t₁ = (.ok frame, t₂)) :
    Reaches may w (frame :: active) (.code room frame stop entry t₂)
  | host {active : List Nat} {room ctx stop offset : Nat} {i : Instr} {f : FuncValue}
    {name : String} {args : List Value} {t t₁ t₂ : Thread}
    (h : Reaches may w active (.code room ctx stop offset t)) (hi : m.Fetches stop offset t i t₁)
    (hcalls : m.CallsHost ctx i t₁ f name args t₂) :
    Reaches may w active (.host room (t₂.world.publishing t₂.depth))
  | callback {active : List Nat} {room : Nat} {f : FuncInfo} {w₁ w₂ : World} {c : Closure}
    {args : List Value} (h : Reaches may w active (.host room w₁)) (hmay : may w₁ w₂ c args)
    (hf : m.program.func c.func = .ok f) (hargs : args.length = f.numIn) :
    Reaches may w active (.call room c.func c.parent ⟨w₂, args.toArray, 0, w₂.store.hostDepth⟩)

end Machine

end StackScript
