import Swy.AST.ASTCursor
import Swy.Library.Blocks

/-!
# The intermediate representation

The part of LLVM's IR that the code generation emits, and what executing it does.

The storage of a variable is named after the node that declares it: `alloca d` is the instruction
that allocates it, and as an operand its address. Registers hold 32 bit words, an `i1` is 0 or 1.
Block names, instruction metadata and the order of the blocks in the function are left out. A
`reference` stands where a reference to a variable was compiled and a `statement` behind the code of
an expression statement; LLVM has no such instructions, since naming a value and dropping one emit
nothing, and executing them only records that the place was reached.

Executing a function appends to a trace of `Event`s. What the called functions return, the outcome
of every conditional branch and the contents of fresh memory are given by a `Runtime`; the real
machine branches on the condition (`Runtime.branchesOnCondition`).
-/

namespace Swy

open Library

/-- A virtual register. -/
abbrev Register := Nat

/-- A basic block. -/
abbrev BlockId := Nat

/-- What the type of a function says: the number of its parameters and whether it returns void. -/
structure FunctionType where
  params : Nat
  returnsVoid : Bool
deriving DecidableEq, Repr

/-- An `llvm::Value*`. -/
inductive Operand where
  | constant (value : Word)
  | argument (index : Nat)
  | register (r : Register)
  | alloca (decl : NodeId)
  | function (decl : NodeId) (type : FunctionType)
  | void
deriving DecidableEq, Repr

/-- The operand has the integer type. -/
def Operand.isInteger : Operand → Bool
  | constant _ | argument _ | register _ => true
  | _ => false

/-- The instructions that do not end a block. -/
inductive Operation where
  | alloca (decl : NodeId)
  | store (value : Operand) (decl : NodeId)
  | load (target : Register) (decl : NodeId)
  | binary (target : Register) (op : ExprBinaryOperator) (left right : Operand)
  | icmp (target : Register) (op : ExprBinaryOperator) (left right : Operand)
  | zext (target : Register) (source : Operand)
  | isNotNull (target : Register) (source : Operand)
  | call (target : Register) (callee : NodeId) (arguments : List Operand)
  | callMeta (arguments : List Operand)
  | contribute (node : Node)
  | reduce
  | introduce (node : Node) (value : NodeId) (level : DepthLevel)
  | reference (ref decl : NodeId)
  | statement (stmt : NodeId)
deriving DecidableEq, Repr

/-- The instructions that end a block. -/
inductive Terminator where
  | br (target : BlockId)
  | condBr (condition : Operand) (trueBlock falseBlock : BlockId)
  | ret (value : Operand)
  | retVoid
deriving DecidableEq, Repr

/-- An instruction. -/
inductive Instruction where
  | operation (o : Operation)
  | terminator (t : Terminator)
deriving DecidableEq, Repr

/-! ## What executing code does -/

/-- What an operand evaluates to. -/
inductive Value where
  | int (value : Word)
  | address (decl : NodeId)
  | function (decl : NodeId) (type : FunctionType)
  | void
deriving DecidableEq, Repr

namespace Value

/-- The word of an integer. -/
def word : Value → Word
  | int value => value
  | _ => 0

/-- The comparison with null: no address is null. -/
def isNotNull : Value → Word
  | int value => if value = 0 then 0 else 1
  | _ => 1

end Value

namespace ExprBinaryOperator

/-- The operators that have an instruction of their own. -/
def isArithmetic : ExprBinaryOperator → Bool
  | mul | div | plus | minus => true
  | _ => false

/-- What the arithmetic instructions and the comparisons compute. Dividing by zero, or the least
number by `-1`, is undefined in the generated code: what is said of executions is about those
without. -/
def evaluate : ExprBinaryOperator → Word → Word → Word
  | mul, x, y => x * y
  | div, x, y => x.sdiv y
  | plus, x, y => x + y
  | minus, x, y => x - y
  | lessThan, x, y => if x.slt y then 1 else 0
  | greaterThan, x, y => if y.slt x then 1 else 0
  | lessThanOrEq, x, y => if x.sle y then 1 else 0
  | greaterThanOrEq, x, y => if y.sle x then 1 else 0
  | equal, x, y => if x = y then 1 else 0
  | notEqual, x, y => if x = y then 0 else 1
  | assign, _, y => y

end ExprBinaryOperator

/-- What an execution does that can be observed. -/
inductive Event where
  | alloca (decl : NodeId)
  | store (decl : NodeId) (value : Word)
  | call (callee : NodeId) (arguments : List Word)
  | callMeta (arguments : List Word)
  | contribute (node : Node)
  | reduce
  | introduce (node : Node) (value : Word) (level : DepthLevel)
  | reference (ref decl : NodeId)
  | statement (stmt : NodeId)
  | branch (outcome : Bool)
  | ret (value : Option Value)
deriving DecidableEq, Repr

/-- What the code does not decide itself. -/
structure Runtime where
  /-- What the call of a function returns. -/
  calls : NodeId → List Word → Word
  /-- The outcome of a conditional branch: from the number of branches before and the condition. -/
  choose : Nat → Word → Bool
  /-- What is found in memory before anything was stored there. -/
  uninitialized : NodeId → Word
deriving Inhabited

/-- The conditional branches go where the condition says. -/
def Runtime.branchesOnCondition (rt : Runtime) : Prop :=
  ∀ count condition, rt.choose count condition = (condition != 0)

/-- The variables and the number of conditional branches so far. -/
structure Memory where
  slots : NodeId → Word
  branches : Nat

/-- The memory a function starts with. -/
def Runtime.memory (rt : Runtime) : Memory where
  slots := rt.uninitialized
  branches := 0

/-- What an effect returns, the memory it leaves and what it did. -/
structure Result (α : Type) where
  value : α
  memory : Memory
  events : List Event

/-- An effect on memory that can be observed. -/
def Exec (α : Type) := Memory → Result α

namespace Exec

variable {α β : Type}

instance : Monad Exec where
  pure a := fun μ => ⟨a, μ, []⟩
  bind x f := fun μ =>
    let r := x μ
    let r' := f r.value r.memory
    ⟨r'.value, r'.memory, r.events ++ r'.events⟩

@[simp] theorem pure_apply (a : α) (μ : Memory) : (pure a : Exec α) μ = ⟨a, μ, []⟩ := rfl

@[simp] theorem bind_apply (x : Exec α) (f : α → Exec β) (μ : Memory) :
    (x >>= f) μ = ⟨(f (x μ).value (x μ).memory).value, (f (x μ).value (x μ).memory).memory,
      (x μ).events ++ (f (x μ).value (x μ).memory).events⟩ := rfl

instance : LawfulMonad Exec :=
  LawfulMonad.mk' Exec
    (fun x => funext fun μ => congrArg (Result.mk (x μ).value (x μ).memory) (List.append_nil _))
    (fun _ _ => rfl)
    (fun x f g => funext fun μ => congrArg (Result.mk _ _) (List.append_assoc _ _ _))

/-- Only records the event. -/
def emit (e : Event) : Exec Unit := fun μ => ⟨(), μ, [e]⟩

/-- Reads a variable. -/
def load (decl : NodeId) : Exec Word := fun μ => ⟨μ.slots decl, μ, []⟩

/-- Writes a variable. -/
def store (decl : NodeId) (value : Word) : Exec Unit := fun μ =>
  ⟨(), { μ with slots := fun d => if d = decl then value else μ.slots d }, [.store decl value]⟩

/-- Calls a function. -/
def call (rt : Runtime) (callee : NodeId) (arguments : List Word) : Exec Word := fun μ =>
  ⟨rt.calls callee arguments, μ, [.call callee arguments]⟩

/-- Takes a conditional branch. -/
def branch (rt : Runtime) (condition : Word) : Exec Bool := fun μ =>
  let outcome := rt.choose μ.branches condition
  ⟨outcome, { μ with branches := μ.branches + 1 }, [.branch outcome]⟩

end Exec

/-- The state of an execution. -/
structure Machine where
  registers : Register → Word
  memory : Memory
  trace : List Event

namespace Machine

/-- The machine at the entry of a function. -/
def start (memory : Memory) : Machine where
  registers := fun _ => 0
  memory := memory
  trace := []

/-- Performs an effect. -/
def perform {α : Type} (e : Exec α) (m : Machine) : Machine :=
  { m with memory := (e m.memory).memory, trace := m.trace ++ (e m.memory).events }

/-- Writes a register. -/
def set (target : Register) (value : Word) (m : Machine) : Machine :=
  { m with registers := fun r => if r = target then value else m.registers r }

/-- Performs an effect and writes its value into a register. -/
def assign (target : Register) (e : Exec Word) (m : Machine) : Machine :=
  (m.perform e).set target (e m.memory).value

end Machine

section Execution

variable (rt : Runtime) (arguments : List Word)

/-- The value of an operand. -/
def Operand.denote (registers : Register → Word) : Operand → Value
  | constant value => .int value
  | argument index => .int (arguments.getD index 0)
  | register r => .int (registers r)
  | alloca decl => .address decl
  | function decl type => .function decl type
  | void => .void

/-- The word an operand evaluates to. -/
def Machine.wordOf (m : Machine) (o : Operand) : Word := (o.denote arguments m.registers).word

/-- Executes an instruction that does not end its block. -/
def Operation.exec : Operation → Machine → Machine
  | alloca decl, m => m.perform (Exec.emit (.alloca decl))
  | store value decl, m => m.perform (Exec.store decl (m.wordOf arguments value))
  | load target decl, m => m.assign target (Exec.load decl)
  | binary target op left right, m | icmp target op left right, m =>
    m.set target (op.evaluate (m.wordOf arguments left) (m.wordOf arguments right))
  | zext target source, m => m.set target (m.wordOf arguments source)
  | isNotNull target source, m =>
    m.set target (source.denote arguments m.registers).isNotNull
  | call target callee args, m =>
    m.assign target (Exec.call rt callee (args.map (m.wordOf arguments)))
  | callMeta args, m => m.perform (Exec.emit (.callMeta (args.map (m.wordOf arguments))))
  | contribute node, m => m.perform (Exec.emit (.contribute node))
  | reduce, m => m.perform (Exec.emit .reduce)
  | introduce node value level, m =>
    m.perform (Exec.emit (.introduce node (m.memory.slots value) level))
  | reference ref decl, m => m.perform (Exec.emit (.reference ref decl))
  | statement stmt, m => m.perform (Exec.emit (.statement stmt))

/-- Executes an instruction that ends its block. -/
def Terminator.exec : Terminator → Machine → Outcome (Point × Machine) Machine
  | br target, m => .running (⟨target, 0⟩, m)
  | condBr condition trueBlock falseBlock, m =>
    let outcome := (Exec.branch rt (m.wordOf arguments condition) m.memory).value
    .running (⟨if outcome then trueBlock else falseBlock, 0⟩,
      m.perform (Exec.branch rt (m.wordOf arguments condition)))
  | ret value, m =>
    .halted (m.perform (Exec.emit (.ret (some (value.denote arguments m.registers)))))
  | retVoid, m => .halted (m.perform (Exec.emit (.ret none)))

/-- One step of a function with the given code. -/
def step (code : Blocks Instruction) : Point × Machine → Outcome (Point × Machine) Machine
  | (p, m) =>
    match code.fetch p with
    | none => .stuck
    | some (.operation o) => .running (⟨p.block, p.index + 1⟩, o.exec rt arguments m)
    | some (.terminator t) => t.exec rt arguments m

/-- The start of a function: its entry is the first block that was created. -/
def entry : Point × Machine := (⟨0, 0⟩, .start rt.memory)

end Execution

end Swy
