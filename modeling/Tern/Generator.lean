import Tern.Stubs

/-! The program `gen`, which writes the stubs and the dispatcher from an interface: what it
writes for any interface, what the C that it writes does, and that the two sides fit
together. The lines that print are left out. -/

namespace Tern.Gen

open Lib

/-! ## Interfaces -/

/-- The types of parameters: a 64-bit `typedef`, the other scalars, and capabilities. -/
inductive CType
  | named (name : String)
  | uint8
  | bool
  | pointer (name : String)
  | cptr
  deriving DecidableEq

structure ParamDecl where
  name : String
  type : CType

structure MethodDecl where
  name : String
  parameters : List ParamDecl

structure TypeDecl where
  name : String
  methods : List MethodDecl

/-- The `types` of `interface.yml`. -/
abbrev Interface := List TypeDecl

/-- `type` is the name of the `KType` that the method belongs to. -/
structure KMethod where
  type : String
  name : String
  parameters : List ParamDecl

namespace KMethod

variable (m : KMethod)

def userFunctionName : String := m.type ++ "_" ++ m.name
def kernelFunctionName : String := m.type ++ "_" ++ m.name
def identifierName : String := "METHOD_" ++ m.type.toUpper ++ "_" ++ m.name.toUpper
def typeName : String := "CAP_" ++ m.type.toUpper

def mrParameters : List ParamDecl := m.parameters.filter (·.type ≠ .cptr)
def capParameters : List ParamDecl := m.parameters.filter (·.type = .cptr)

end KMethod

def TypeDecl.typeName (t : TypeDecl) : String := "CAP_" ++ t.name.toUpper

def TypeDecl.kmethods (t : TypeDecl) : List KMethod :=
  t.methods.map fun m => ⟨t.name, m.name, m.parameters⟩

def Interface.methods (i : Interface) : List KMethod := i.flatMap TypeDecl.kmethods

/-! ## The text that is written -/

/-- The statements of a user stub. -/
inductive UserStmt
  /-- `set_mr (i, (word_t)x);` -/
  | setMr (i : Nat) (x : String)
  /-- `set_cap (i, x);` -/
  | setCap (i : Nat) (x : String)
  /-- `message_tag_t x = new_message_tag (label, 0, extraCaps, length);` -/
  | declareTag (x label : String) (extraCaps length : Nat)
  /-- `return message_label (call (obj, info, nullptr));` -/
  | returnCall (obj info : String)

/-- The statements of a case of the dispatcher. -/
inductive KernelStmt
  /-- `type x = (type)get_mr (i);` -/
  | declareMr (type : CType) (x : String) (i : Nat)
  /-- `cte_t *x;` -/
  | declareSlot (x : String)
  /-- `if (cap_type (slot) != type) return msg_illegal_operation ();` -/
  | requireType (type : String)
  /-- `do { word_t len = message_length (info); if (len < n) return ...; } while (0);` -/
  | requireMrs (n : Nat)
  /-- The same with `message_extra_caps`. -/
  | requireCaps (n : Nat)
  /-- `TRY (lookup_cap_slot (&this_tcb->cspace_root, get_cap (i), 64, &x));` -/
  | lookup (i : Nat) (x : String)
  /-- `return f (args);` -/
  | returnCall (f : String) (args : List String)

structure UserFunction where
  name : String
  params : List String
  body : List UserStmt

/-- The four files: the two enumerations, the stubs, and the cases of the dispatcher. -/
structure Files where
  objectTypes : List String
  methodIds : List String
  stubs : List UserFunction
  cases : List (String × List KernelStmt)

namespace KMethod

variable (m : KMethod)

def usermodeWrapper : UserFunction where
  name := m.userFunctionName
  params := "obj" :: m.parameters.map ParamDecl.name
  body := (m.mrParameters.zipIdx.map fun p => .setMr p.2 p.1.name) ++
    (m.capParameters.zipIdx.map fun p => .setCap p.2 p.1.name) ++
    [.declareTag "_info" m.identifierName m.capParameters.length m.mrParameters.length,
      .returnCall "obj" "_info"]

def kernelUnmarshalCheckParametersLength : List KernelStmt :=
  (if 0 < m.mrParameters.length then [.requireMrs m.mrParameters.length] else []) ++
    if 0 < m.capParameters.length then [.requireCaps m.capParameters.length] else []

def kernelUnmarshalAndCall : List KernelStmt :=
  (m.mrParameters.zipIdx.map fun p => .declareMr p.1.type p.1.name p.2) ++
    (m.capParameters.map fun p => .declareSlot p.name) ++
    [.requireType m.typeName] ++ m.kernelUnmarshalCheckParametersLength ++
    (m.capParameters.zipIdx.map fun p => .lookup p.2 p.1.name) ++
    [.returnCall m.kernelFunctionName ("slot" :: m.parameters.map ParamDecl.name)]

end KMethod

/-- The whole program. -/
def gen (i : Interface) : Files where
  objectTypes := i.map TypeDecl.typeName
  methodIds := "METHOD_INVALID" :: i.methods.map KMethod.identifierName
  stubs := i.methods.map KMethod.usermodeWrapper
  cases := i.methods.map fun m => (m.identifierName, m.kernelUnmarshalAndCall)

/-! ## What the text means -/

/-- The words of C and of its compiler that look like names. -/
def keywords : List String :=
  ["alignas", "alignof", "asm", "auto", "bool", "break", "case", "char", "const", "constexpr",
    "continue", "default", "do", "double", "else", "enum", "extern", "false", "float", "for", "goto",
    "if", "inline", "int", "long", "nullptr", "register", "restrict", "return", "short", "signed",
    "sizeof", "static", "static_assert", "struct", "switch", "thread_local", "true", "typedef",
    "typeof", "typeof_unqual", "union", "unsigned", "void", "volatile", "while", "linux", "unix"]

/-- Values of variables; a slot that is declared only is `unset`. -/
inductive Value
  | word (w : Word)
  | tag (t : MessageTag)
  | slot (p : Word)
  | unset
  deriving DecidableEq

/-- The variables in scope. -/
abbrev Env := String → Option Value

/-- `(type)w`, as a word again. -/
def CType.cast : CType → Word → Word
  | .uint8, w => (w.setWidth 8).setWidth 64
  | .bool, w => wordOfBool (w != 0#64)
  | _, w => w

/-- The names that are not of variables; `bool` is a keyword. -/
def CType.mentions : CType → List String
  | .named x => [x]
  | .uint8 => ["uint8_t"]
  | .bool => []
  | .pointer x => [x]
  | .cptr => ["cptr_t"]

def UserStmt.mentions : UserStmt → List String
  | .setMr .. => ["set_mr", "word_t"]
  | .setCap .. => ["set_cap"]
  | .declareTag _ label .. => ["message_tag_t", "new_message_tag", label]
  | .returnCall .. => ["message_label", "call"]

/-- With the names that the macros bring in: `cap_type` chooses by the type of its
argument, `this_tcb` is a field of `this_cpu`, and `TRY` declares a `__tag`. -/
def KernelStmt.mentions : KernelStmt → List String
  | .declareMr type .. => "get_mr" :: type.mentions
  | .declareSlot _ => ["cte_t"]
  | .requireType type =>
    ["cap_type", "cap_t", "cte_t", "cte_ptr_type", type, "msg_illegal_operation"]
  | .requireMrs _ => ["word_t", "message_length", "msg_truncated_message"]
  | .requireCaps _ => ["word_t", "message_extra_caps", "msg_truncated_message"]
  | .lookup .. => ["message_tag_t", "lookup_cap_slot", "this_tcb", "this_cpu", "per_cpu_t", "get_cap",
      "NO_ERROR", "__tag"]
  | .returnCall f _ => [f]

/-- None of the names is hidden by a variable. -/
def Env.Free (env : Env) (names : List String) : Prop := ∀ x ∈ names, env x = none

instance (env : Env) (names : List String) : Decidable (env.Free names) :=
  inferInstanceAs (Decidable (∀ x ∈ names, env x = none))

def Env.set (env : Env) (x : String) (v : Value) : Env := Function.update env x (some v)

/-- A stub up to its system call: the buffer, the capability and the tag. `none` stands for a
text that does not compile, or that means something else than it seems to. -/
def runUser (ids : List String) :
    List UserStmt → Env → IpcBuffer → Option (IpcBuffer × Word × MessageTag)
  | [], _, _ => none
  | s :: ss, env, buffer =>
    if env.Free s.mentions then
      match s with
      | .setMr i x =>
        match env x with
        | some (.word w) => runUser ids ss env (Function.update buffer i w)
        | _ => none
      | .setCap i x =>
        match env x with
        | some (.word w) => runUser ids ss env (Function.update buffer (capsOrBadges i) w)
        | _ => none
      | .declareTag x label extraCaps length =>
        match ids.idxOf? label, env x with
        | some n, none =>
          runUser ids ss (env.set x (.tag (newMessageTag (BitVec.ofNat 64 n) 0
            (BitVec.ofNat 64 extraCaps) (BitVec.ofNat 64 length)))) buffer
        | _, _ => none
      | .returnCall obj info =>
        match env obj, env info with
        | some (.word w), some (.tag t) => some (buffer, w, t)
        | _, _ => none
    else none

/-- The variables of a stub: `obj` and the parameters. -/
def stubEnv (params : List String) (obj : Word) (args : String → Word) : Env := fun x =>
  if x = "obj" then some (.word obj) else if x ∈ params then some (.word (args x)) else none

/-- A call of a stub; parameters have different names, and names they can have. -/
def UserFunction.run (f : UserFunction) (ids : List String) (obj : Word) (args : String → Word)
    (buffer : IpcBuffer) : Option (IpcBuffer × Word × MessageTag) :=
  if f.params.Nodup ∧ ∀ x ∈ f.params, x ∉ keywords then
    runUser ids f.body (stubEnv f.params obj args) buffer
  else none

/-- How `dispatch_method` ends: with an answer of its own, or in a kernel function. -/
inductive Outcome
  | answers (r : Reply)
  | calls (f : String) (args : List Value)

/-- Words and slots can be passed on. -/
def Env.arguments (env : Env) : List String → Option (List Value)
  | [] => some []
  | x :: xs =>
    match env x with
    | some (.word w) => (env.arguments xs).map (.word w :: ·)
    | some (.slot p) => (env.arguments xs).map (.slot p :: ·)
    | _ => none

/-- A case of the dispatcher; `block` are the variables that it has declared itself. -/
def runKernel (types : List String) (k : Kernel) :
    List KernelStmt → Env → List String → Result (Option Outcome)
  | [], _, _ => .ok none
  | s :: ss, env, block =>
    if env.Free s.mentions then
      match s with
      | .declareMr type x i =>
        if x ∈ block ∨ x ∈ s.mentions ∨ x ∈ keywords then .ok none
        else do
          let b ← thisBuffer k
          runKernel types k ss (env.set x (.word (type.cast (k.buffers b i)))) (x :: block)
      | .declareSlot x =>
        if x ∈ block ∨ x ∈ s.mentions ∨ x ∈ keywords then .ok none
        else runKernel types k ss (env.set x .unset) (x :: block)
      | .requireType type =>
        match env "slot", types.idxOf? type with
        | some (.slot p), some n =>
          if (k.slots p).cap.type.toNat ≠ n then .ok (some (.answers .illegalOperation))
          else runKernel types k ss env block
        | _, _ => .ok none
      | .requireMrs n =>
        match env "info" with
        | some (.tag t) =>
          if t.length.toNat < n then .ok (some (.answers (.truncatedMessage
            (BitVec.ofNat 64 t.length.toNat) (BitVec.ofNat 64 n))))
          else runKernel types k ss env block
        | _ => .ok none
      | .requireCaps n =>
        match env "info" with
        | some (.tag t) =>
          if t.extraCaps.toNat < n then .ok (some (.answers (.truncatedMessage
            (BitVec.ofNat 64 t.extraCaps.toNat) (BitVec.ofNat 64 n))))
          else runKernel types k ss env block
        | _ => .ok none
      | .lookup i x => do
        if env x ≠ some .unset then return none
        let this ← thisTcb k
        let cptr ← getCap k i
        match ← lookupCapSlot k.slots (cspaceRootOf this) cptr 64#64 with
        | .error e => return some (.answers e)
        | .ok p => runKernel types k ss (env.set x (.slot p)) block
      | .returnCall f args => .ok ((env.arguments args).map (.calls f))
    else .ok none

/-- The parameters of `dispatch_method`. -/
def dispatchEnv (slot : Word) (info : MessageTag) : Env := fun x =>
  if x = "slot" then some (.slot slot) else if x = "info" then some (.tag info) else none

/-- `dispatch_method`: a switch on the label. -/
def Files.dispatchMethod (files : Files) (k : Kernel) (slot : Word) (info : MessageTag) :
    Result (Option Outcome) :=
  match files.cases.find? fun c => files.methodIds.idxOf? c.1 = some info.label.toNat with
  | none => .ok (some (.answers .illegalOperation))
  | some c => runKernel files.objectTypes k c.2 (dispatchEnv slot info) []

/-! ## Well-formed interfaces -/

/-- The variables that the text declares for itself. -/
def ownVariables : List String := ["obj", "_info", "slot", "info"]

/-- What the text calls and mentions in any method, in the lines that print as well,
and what its macros stand for. -/
def reserved : List String :=
  ["set_mr", "word_t", "set_cap", "message_tag_t", "new_message_tag", "message_label", "call", "get_mr",
    "cte_t", "cap_type", "msg_illegal_operation", "message_length", "message_extra_caps",
    "msg_truncated_message", "lookup_cap_slot", "this_tcb", "get_cap", "NO_ERROR", "__tag", "printf",
    "cap_type_string", "cap_ptr", "cptr_t", "TRY", "dbg_printf", "err_printf", "this_cpu", "per_cpu_t",
    "cap_t", "cte_ptr_type", "cte_ptr", "cap_value_type_string", "cte_type_string"]

/-- Constants of `sys/types.h` that an enumerator could be taken for. -/
def capConstants : List String :=
  ["CAP_RIGHTS_NONE", "CAP_RIGHTS_READ", "CAP_RIGHTS_WRITE", "CAP_RIGHTS_ALL"]

/-- Lower case throughout, as no other macro of the headers is. -/
def isName (x : String) : Bool :=
  match x.toList with
  | [] => false
  | c :: cs => c.isLower && cs.all fun c => c.isLower || c.isDigit || c == '_'

namespace KMethod

variable (m : KMethod)

def externals : List String :=
  reserved ++ [m.identifierName, m.typeName, m.kernelFunctionName] ++
    m.parameters.flatMap fun p => p.type.mentions

/-- No variable hides another one or a name that the text needs, and none is a word
that C has for itself. -/
structure WellNamed : Prop where
  nodup : (m.parameters.map ParamDecl.name).Nodup
  own : ∀ p ∈ m.parameters, p.name ∉ ownVariables
  externals : ∀ p ∈ m.parameters, p.name ∉ m.externals
  apart : ∀ x ∈ ownVariables, x ∉ m.externals
  names : ∀ p ∈ m.parameters, isName p.name = true ∧ p.name ∉ keywords
  function : isName m.name = true ∧ m.kernelFunctionName ∉ reserved ++ keywords

/-- The arguments fit the registers and their numbers the tag. -/
structure Fits : Prop where
  mrs : m.mrParameters.length ≤ messageMaxLength
  caps : m.capParameters.length ≤ 3

end KMethod

/-- Enumerators are distinct, labels fit the tag, and every method is well named. -/
structure Interface.WellFormed (i : Interface) : Prop where
  types : (gen i).objectTypes.Nodup
  ids : (gen i).methodIds.Nodup
  labels : (gen i).methodIds.length ≤ 2 ^ 50
  names : ∀ t ∈ i, isName t.name = true ∧ t.typeName ∉ capConstants
  named : ∀ m ∈ i.methods, m.WellNamed
  fits : ∀ m ∈ i.methods, m.Fits

/-! ## Stubs -/

theorem Env.Free.set {env : Env} {names : List String} {x : String} (h : env.Free names)
    (hx : x ∉ names) (v : Value) : (env.set x v).Free names := by
  intro y hy
  rw [Env.set, Function.update_of_ne]
  · exact h y hy
  · rintro rfl
    exact hx hy

theorem Env.Free.mono {env : Env} {names names' : List String} (h : env.Free names)
    (hsub : ∀ x ∈ names', x ∈ names) : env.Free names' := fun x hx => h x (hsub x hx)

section Stubs

variable {ids : List String} {env : Env} {args : String → Word} {ps : List ParamDecl}
  {label : String} {obj : Word} {n : Nat}

theorem runUser_setMrs (hfree : env.Free ["set_mr", "word_t"])
    (hps : ∀ p ∈ ps, env p.name = some (.word (args p.name))) (i : Nat) (buffer : IpcBuffer)
    (rest : List UserStmt) :
    runUser ids (((ps.zipIdx i).map fun p => .setMr p.2 p.1.name) ++ rest) env buffer =
      runUser ids rest env (store buffer i (ps.map fun p => args p.name)) := by
  induction ps generalizing i buffer with
  | nil => rfl
  | cons p ps ih =>
    have hmentions : env.Free (UserStmt.setMr i p.name).mentions := hfree
    have hstep : ∀ ss, runUser ids (.setMr i p.name :: ss) env buffer =
        runUser ids ss env (Function.update buffer i (args p.name)) := fun ss => by
      rw [runUser, if_pos hmentions]
      simp only [hps p List.mem_cons_self]
    exact (hstep _).trans (ih (fun q hq => hps q (List.mem_cons_of_mem p hq)) _ _)

theorem runUser_setCaps (hfree : env.Free ["set_cap"])
    (hps : ∀ p ∈ ps, env p.name = some (.word (args p.name))) (i : Nat) (buffer : IpcBuffer)
    (rest : List UserStmt) :
    runUser ids (((ps.zipIdx i).map fun p => .setCap p.2 p.1.name) ++ rest) env buffer =
      runUser ids rest env (store buffer (capsOrBadges i) (ps.map fun p => args p.name)) := by
  induction ps generalizing i buffer with
  | nil => rfl
  | cons p ps ih =>
    have hmentions : env.Free (UserStmt.setCap i p.name).mentions := hfree
    have hstep : ∀ ss, runUser ids (.setCap i p.name :: ss) env buffer =
        runUser ids ss env (Function.update buffer (capsOrBadges i) (args p.name)) := fun ss => by
      rw [runUser, if_pos hmentions]
      simp only [hps p List.mem_cons_self]
    exact (hstep _).trans (ih (fun q hq => hps q (List.mem_cons_of_mem p hq)) _ _)

theorem runUser_finish (hfree : env.Free ["message_tag_t", "new_message_tag", label])
    (hcall : env.Free ["message_label", "call"]) (hobj : env "obj" = some (.word obj))
    (hinfo : env "_info" = none) (hlabel : ids.idxOf? label = some n) (caps mrs : Nat)
    (buffer : IpcBuffer) :
    runUser ids [.declareTag "_info" label caps mrs, .returnCall "obj" "_info"] env buffer =
      some (buffer, obj, newMessageTag (BitVec.ofNat 64 n) 0 (BitVec.ofNat 64 caps)
        (BitVec.ofNat 64 mrs)) := by
  have hmentions : env.Free (UserStmt.declareTag "_info" label caps mrs).mentions := hfree
  rw [runUser, if_pos hmentions]
  simp only [hlabel, hinfo]
  have hrest : (env.set "_info" (.tag (newMessageTag (BitVec.ofNat 64 n) 0 (BitVec.ofNat 64 caps)
      (BitVec.ofNat 64 mrs)))).Free (UserStmt.returnCall "obj" "_info").mentions :=
    hcall.set (by decide) _
  rw [runUser, if_pos hrest]
  simp [Env.set, hobj]

end Stubs

namespace KMethod

variable {m : KMethod}

theorem mem_parameters_of_mr {p : ParamDecl} (h : p ∈ m.mrParameters) : p ∈ m.parameters :=
  List.mem_of_mem_filter h

theorem mem_parameters_of_cap {p : ParamDecl} (h : p ∈ m.capParameters) : p ∈ m.parameters :=
  List.mem_of_mem_filter h

theorem reserved_externals {x : String} (h : x ∈ reserved) : x ∈ m.externals := by
  simp only [externals, List.mem_append]
  exact .inl (.inl h)

/-- Scalars and capabilities of a call, in the order of the parameters. -/
def scalars (m : KMethod) (args : String → Word) : List Word :=
  m.mrParameters.map fun p => args p.name

def handles (m : KMethod) (args : String → Word) : List Word :=
  m.capParameters.map fun p => args p.name

/-- A well named stub does what its text seems to say. -/
theorem WellNamed.stub (h : m.WellNamed) {ids : List String} {n : Nat}
    (hid : ids.idxOf? m.identifierName = some n) (obj : Word) (args : String → Word)
    (buffer : IpcBuffer) :
    m.usermodeWrapper.run ids obj args buffer =
      some (store (store buffer 0 (m.scalars args)) (capsOrBadges 0) (m.handles args), obj,
        newMessageTag (BitVec.ofNat 64 n) 0 (BitVec.ofNat 64 m.capParameters.length)
          (BitVec.ofNat 64 m.mrParameters.length)) := by
  have hobj : "obj" ∉ m.parameters.map ParamDecl.name := by
    intro hmem
    obtain ⟨p, hp, hname⟩ := List.mem_map.mp hmem
    exact h.own p hp (hname ▸ by decide)
  set env := stubEnv m.usermodeWrapper.params obj args with henv
  have hparam : ∀ p ∈ m.parameters, env p.name = some (.word (args p.name)) := by
    intro p hp
    have hne : p.name ≠ "obj" := fun he => h.own p hp (he ▸ by decide)
    have hmem : p.name ∈ m.usermodeWrapper.params :=
      List.mem_cons_of_mem _ (List.mem_map_of_mem hp)
    simp only [henv, stubEnv, if_neg hne, if_pos hmem]
  have hunbound : ∀ x, x ≠ "obj" → (∀ p ∈ m.parameters, p.name ≠ x) → env x = none := by
    intro x hne hx
    have hmem : x ∉ m.usermodeWrapper.params := by
      simp only [usermodeWrapper, List.mem_cons, List.mem_map, not_or, not_exists, not_and]
      exact ⟨hne, hx⟩
    simp only [henv, stubEnv, if_neg hne, if_neg hmem]
  have hfree : env.Free m.externals := by
    intro x hx
    refine hunbound x ?_ fun p hp hname => h.externals p hp (hname ▸ hx)
    rintro rfl
    exact h.apart "obj" (by decide) hx
  have hreserved : ∀ names, (∀ x ∈ names, x ∈ reserved) → env.Free names := fun names hnames =>
    hfree.mono fun x hx => reserved_externals (hnames x hx)
  have hlabel : env.Free ["message_tag_t", "new_message_tag", m.identifierName] := by
    intro x hx
    refine hfree x ?_
    simp only [List.mem_cons, List.not_mem_nil, or_false] at hx
    rcases hx with rfl | rfl | rfl
    · exact reserved_externals (by decide)
    · exact reserved_externals (by decide)
    · simp [KMethod.externals]
  have hinfo : env "_info" = none :=
    hunbound "_info" (by decide) fun p hp hname => h.own p hp (hname ▸ by decide)
  have hobjvalue : env "obj" = some (.word obj) := by simp [henv, stubEnv]
  have hnodup : m.usermodeWrapper.params.Nodup := List.nodup_cons.mpr ⟨hobj, h.nodup⟩
  have hnames : ∀ x ∈ m.usermodeWrapper.params, x ∉ keywords :=
    List.forall_mem_cons.mpr ⟨by decide, List.forall_mem_map.mpr fun p hp => (h.names p hp).2⟩
  rw [UserFunction.run, if_pos ⟨hnodup, hnames⟩, ← henv, usermodeWrapper, List.append_assoc]
  rw [runUser_setMrs (hreserved _ (by decide)) fun p hp => hparam p (mem_parameters_of_mr hp),
    runUser_setCaps (hreserved _ (by decide)) fun p hp => hparam p (mem_parameters_of_cap hp),
    runUser_finish hlabel (hreserved _ (by decide)) hobjvalue hinfo hid]
  rfl

end KMethod

/-! ## Cases of the dispatcher -/

/-- Several variables, one after the other. -/
def Env.setAll (env : Env) (l : List (String × Value)) : Env := l.foldl (fun env p => env.set p.1 p.2) env

theorem Env.setAll_append (env : Env) (l l' : List (String × Value)) :
    env.setAll (l ++ l') = (env.setAll l).setAll l' := List.foldl_append

theorem Env.setAll_of_not_mem {env : Env} {l : List (String × Value)} {x : String}
    (h : x ∉ l.map Prod.fst) : env.setAll l x = env x := by
  induction l generalizing env with
  | nil => rfl
  | cons p l ih =>
    rw [List.map_cons, List.mem_cons, not_or] at h
    exact (ih h.2).trans (Function.update_of_ne h.1 ..)

theorem Env.setAll_of_mem {env : Env} {l : List (String × Value)} (hnodup : (l.map Prod.fst).Nodup)
    {p : String × Value} (hp : p ∈ l) : env.setAll l p.1 = some p.2 := by
  induction l generalizing env with
  | nil => cases hp
  | cons q l ih =>
    rw [List.map_cons, List.nodup_cons] at hnodup
    rcases List.mem_cons.mp hp with rfl | hp
    · exact (Env.setAll_of_not_mem hnodup.1).trans (Function.update_self ..)
    · exact ih hnodup.2 hp

theorem Env.Free.setAll {env : Env} {names : List String} (h : env.Free names)
    {l : List (String × Value)} (hl : ∀ p ∈ l, p.1 ∉ names) : (env.setAll l).Free names := by
  induction l generalizing env with
  | nil => exact h
  | cons p l ih =>
    exact ih (h.set (hl p List.mem_cons_self) p.2) fun q hq => hl q (List.mem_cons_of_mem p hq)

/-- The values that the parameters get, with registers counted from `i` and `c`. -/
def valuesFrom (mr cap : Nat → Word) : Nat → Nat → List ParamDecl → List Value
  | _, _, [] => []
  | i, c, p :: ps =>
    if p.type = .cptr then .slot (cap c) :: valuesFrom mr cap i (c + 1) ps
    else .word (p.type.cast (mr i)) :: valuesFrom mr cap (i + 1) c ps

def KMethod.values (m : KMethod) (mr cap : Nat → Word) : List Value :=
  valuesFrom mr cap 0 0 m.parameters

section Cases

variable {types : List String} {k : Kernel} {env : Env} {ps : List ParamDecl} {m : KMethod} {b t : Word}

theorem arguments_eq {mr cap : Nat → Word} {i c : Nat}
    (hmr : ∀ q ∈ (ps.filter (·.type ≠ .cptr)).zipIdx i,
      env q.1.name = some (.word (q.1.type.cast (mr q.2))))
    (hcap : ∀ q ∈ (ps.filter (·.type = .cptr)).zipIdx c, env q.1.name = some (.slot (cap q.2))) :
    env.arguments (ps.map ParamDecl.name) = some (valuesFrom mr cap i c ps) := by
  induction ps generalizing i c with
  | nil => rfl
  | cons p ps ih =>
    by_cases hp : p.type = .cptr
    · rw [List.filter_cons_of_neg (by simp [hp])] at hmr
      rw [List.filter_cons_of_pos (by simp [hp]), List.zipIdx_cons] at hcap
      have htail := ih hmr fun q hq => hcap q (List.mem_cons_of_mem _ hq)
      have hhead : env p.name = some (.slot (cap c)) := hcap (p, c) List.mem_cons_self
      simp only [List.map_cons, Env.arguments, hhead, htail, valuesFrom, hp, if_true, Option.map_some]
    · rw [List.filter_cons_of_neg (by simp [hp])] at hcap
      rw [List.filter_cons_of_pos (by simp [hp]), List.zipIdx_cons] at hmr
      have htail := ih (fun q hq => hmr q (List.mem_cons_of_mem _ hq)) hcap
      have hhead : env p.name = some (.word (p.type.cast (mr i))) := hmr (p, i) List.mem_cons_self
      simp only [List.map_cons, Env.arguments, hhead, htail, valuesFrom, hp, if_false, Option.map_some]

/-- The message registers that have been read, counted from `i`. -/
def wordBindings (mr : Nat → Word) (i : Nat) (ps : List ParamDecl) : List (String × Value) :=
  (ps.zipIdx i).map fun q => (q.1.name, .word (q.1.type.cast (mr q.2)))

theorem wordBindings_names (mr : Nat → Word) (i : Nat) (ps : List ParamDecl) :
    (wordBindings mr i ps).map Prod.fst = ps.map ParamDecl.name := by
  have hfst := congrArg (List.map ParamDecl.name) (List.zipIdx_map_fst i ps)
  rw [List.map_map] at hfst
  rw [wordBindings, List.map_map]
  exact hfst

theorem declareMr_mentions {p : ParamDecl} (hp : p ∈ m.parameters) (i : Nat) :
    ∀ x ∈ (KernelStmt.declareMr p.type p.name i).mentions, x ∈ m.externals := by
  intro x hx
  rcases List.mem_cons.mp hx with rfl | hx
  · exact KMethod.reserved_externals (by decide)
  · exact List.mem_append_right _ (List.mem_flatMap.mpr ⟨p, hp, hx⟩)

/-- A parameter can be declared once. -/
theorem KMethod.WellNamed.declarable (h : m.WellNamed) {p : ParamDecl} (hp : p ∈ m.parameters)
    {block mentions : List String} (hblock : p.name ∉ block)
    (hmentions : ∀ x ∈ mentions, x ∈ m.externals) :
    ¬ (p.name ∈ block ∨ p.name ∈ mentions ∨ p.name ∈ keywords) := by
  rintro (hmem | hmem | hmem)
  · exact hblock hmem
  · exact h.externals p hp (hmentions _ hmem)
  · exact (h.names p hp).2 hmem

/-- The declarations of the scalars, where there is a buffer to read them from. -/
theorem runKernel_declareMrs (h : m.WellNamed) (hps : ∀ p ∈ ps, p ∈ m.parameters)
    (hb : thisBuffer k = .ok b) {block : List String} (hnodup : (ps.map ParamDecl.name).Nodup)
    (hblock : ∀ p ∈ ps, p.name ∉ block) (hfree : env.Free m.externals) (i : Nat)
    (rest : List KernelStmt) :
    runKernel types k (((ps.zipIdx i).map fun p => .declareMr p.1.type p.1.name p.2) ++ rest) env block =
      runKernel types k rest (env.setAll (wordBindings (k.buffers b) i ps))
        ((ps.map ParamDecl.name).reverse ++ block) := by
  induction ps generalizing i env block with
  | nil => rfl
  | cons p ps ih =>
    have hp := hps p List.mem_cons_self
    rw [List.map_cons, List.nodup_cons] at hnodup
    have hmentions := declareMr_mentions hp i
    have hown := h.declarable hp (hblock p List.mem_cons_self) hmentions
    have hstep : ∀ ss, runKernel types k (.declareMr p.type p.name i :: ss) env block =
        runKernel types k ss (env.set p.name (.word (p.type.cast (k.buffers b i)))) (p.name :: block) := by
      intro ss
      rw [runKernel, if_pos (hfree.mono hmentions)]
      simp only [if_neg hown, hb, bind, Except.bind]
    have hrest : ∀ q ∈ ps, q.name ∉ p.name :: block := by
      intro q hq hmem
      rcases List.mem_cons.mp hmem with he | hmem
      · exact hnodup.1 (he ▸ List.mem_map_of_mem hq)
      · exact hblock q (List.mem_cons_of_mem p hq) hmem
    refine (hstep _).trans ((ih (fun q hq => hps q (List.mem_cons_of_mem p hq)) hnodup.2 hrest
      (hfree.set (h.externals p hp) _) (i + 1)).trans ?_)
    simp [Env.setAll, wordBindings, List.zipIdx_cons]

/-- Without a buffer the first of them fails. -/
theorem runKernel_declareMrs_error (h : m.WellNamed) (hps : ∀ p ∈ ps, p ∈ m.parameters)
    {e : Halt} (hb : thisBuffer k = .error e) (hne : ps ≠ []) (hfree : env.Free m.externals) (i : Nat)
    (rest : List KernelStmt) :
    runKernel types k (((ps.zipIdx i).map fun p => .declareMr p.1.type p.1.name p.2) ++ rest) env [] =
      .error e := by
  cases ps with
  | nil => exact absurd rfl hne
  | cons p ps =>
    have hp := hps p List.mem_cons_self
    have hmentions := declareMr_mentions hp i
    have hown := h.declarable hp List.not_mem_nil hmentions
    rw [List.zipIdx_cons, List.map_cons, List.cons_append, runKernel, if_pos (hfree.mono hmentions)]
    simp only [if_neg hown, hb, bind, Except.bind]

theorem runKernel_getMrs (h : m.WellNamed) (hps : ∀ p ∈ ps, p ∈ m.parameters)
    (hnodup : (ps.map ParamDecl.name).Nodup) (hfree : env.Free m.externals) (rest : List KernelStmt) :
    runKernel types k ((ps.zipIdx.map fun p => .declareMr p.1.type p.1.name p.2) ++ rest) env [] =
      (getMrs k ps.length >>= fun mr =>
        runKernel types k rest (env.setAll (wordBindings mr 0 ps)) (ps.map ParamDecl.name).reverse) := by
  cases ps with
  | nil => rfl
  | cons p ps =>
    cases hb : thisBuffer k with
    | error e =>
      rw [runKernel_declareMrs_error h hps hb (List.cons_ne_nil p ps) hfree 0 rest]
      simp [getMrs, hb, bind, Except.bind]
    | ok b =>
      rw [runKernel_declareMrs h hps hb hnodup (fun _ _ => List.not_mem_nil) hfree 0 rest,
        List.append_nil]
      simp [getMrs, hb, bind, Except.bind, pure, Except.pure]

theorem runKernel_declareSlots (h : m.WellNamed) (hps : ∀ p ∈ ps, p ∈ m.parameters)
    {block : List String} (hnodup : (ps.map ParamDecl.name).Nodup) (hblock : ∀ p ∈ ps, p.name ∉ block)
    (hfree : env.Free m.externals) (rest : List KernelStmt) :
    runKernel types k ((ps.map fun p => .declareSlot p.name) ++ rest) env block =
      runKernel types k rest (env.setAll (ps.map fun p => (p.name, .unset)))
        ((ps.map ParamDecl.name).reverse ++ block) := by
  induction ps generalizing env block with
  | nil => rfl
  | cons p ps ih =>
    have hp := hps p List.mem_cons_self
    rw [List.map_cons, List.nodup_cons] at hnodup
    have hmentions : ∀ x ∈ (KernelStmt.declareSlot p.name).mentions, x ∈ m.externals := by
      intro x hx
      refine KMethod.reserved_externals ?_
      rw [List.mem_singleton.mp hx]
      decide
    have hown := h.declarable hp (hblock p List.mem_cons_self) hmentions
    have hstep : ∀ ss, runKernel types k (.declareSlot p.name :: ss) env block =
        runKernel types k ss (env.set p.name .unset) (p.name :: block) := by
      intro ss
      rw [runKernel, if_pos (hfree.mono hmentions)]
      simp only [if_neg hown]
    have hrest : ∀ q ∈ ps, q.name ∉ p.name :: block := by
      intro q hq hmem
      rcases List.mem_cons.mp hmem with he | hmem
      · exact hnodup.1 (he ▸ List.mem_map_of_mem hq)
      · exact hblock q (List.mem_cons_of_mem p hq) hmem
    refine (hstep _).trans ((ih (fun q hq => hps q (List.mem_cons_of_mem p hq)) hnodup.2 hrest
      (hfree.set (h.externals p hp) _)).trans ?_)
    simp [Env.setAll]

/-- The capability registers that have been looked up. -/
def slotBindings (cap : Nat → Word) (ps : List ParamDecl) : List (String × Value) :=
  ps.zipIdx.map fun q => (q.1.name, .slot (cap q.2))

theorem slotBindings_names (cap : Nat → Word) (ps : List ParamDecl) :
    (slotBindings cap ps).map Prod.fst = ps.map ParamDecl.name := by
  have hfst := congrArg (List.map ParamDecl.name) (List.zipIdx_map_fst 0 ps)
  rw [List.map_map] at hfst
  rw [slotBindings, List.map_map]
  exact hfst

theorem slotBindings_snoc (cap : Nat → Word) (ps : List ParamDecl) (p : ParamDecl) (s : Word) :
    slotBindings (Function.update cap ps.length s) (ps ++ [p]) =
      slotBindings cap ps ++ [(p.name, .slot s)] := by
  simp only [slotBindings, List.zipIdx_append, List.map_append]
  congr 1
  · refine List.map_congr_left fun q hq => ?_
    have hlt := List.snd_lt_of_mem_zipIdx hq
    rw [Function.update_of_ne (by omega)]
  · simp

theorem lookup_mentions (i : Nat) (y : String) :
    ∀ x ∈ (KernelStmt.lookup i y).mentions, x ∈ reserved := by
  show ∀ x ∈ ["message_tag_t", "lookup_cap_slot", "this_tcb", "this_cpu", "per_cpu_t", "get_cap",
    "NO_ERROR", "__tag"], x ∈ reserved
  decide

/-- The lookups, in the order of the capability registers. -/
theorem runKernel_lookups (h : m.WellNamed) (hps : ∀ p ∈ ps, p ∈ m.parameters)
    (hthis : k.currentTcb = some t) (hnodup : (ps.map ParamDecl.name).Nodup)
    (hunset : ∀ p ∈ ps, env p.name = some .unset) (hfree : env.Free m.externals) (block : List String)
    (rest : List KernelStmt) :
    runKernel types k ((ps.zipIdx.map fun p => .lookup p.2 p.1.name) ++ rest) env block =
      (lookupCaps k t ps.length >>= fun r =>
        match r with
        | .error e => .ok (some (.answers e))
        | .ok cap => runKernel types k rest (env.setAll (slotBindings cap ps)) block) := by
  induction ps using List.reverseRecOn generalizing rest with
  | nil => rfl
  | append_singleton ps p ih =>
    have hp := hps p (by simp)
    rw [List.map_append, List.nodup_append'] at hnodup
    have hnot : p.name ∉ ps.map ParamDecl.name := fun hmem =>
      hnodup.2.2 hmem (by simp)
    have hrun := ih (fun q hq => hps q (List.mem_append_left _ hq)) hnodup.1
      (fun q hq => hunset q (List.mem_append_left _ hq)) (.lookup ps.length p.name :: rest)
    have hsplit : ((ps ++ [p]).zipIdx.map fun p => KernelStmt.lookup p.2 p.1.name) ++ rest =
        (ps.zipIdx.map fun p => .lookup p.2 p.1.name) ++ .lookup ps.length p.name :: rest := by
      simp [List.zipIdx_append]
    rw [hsplit, hrun, List.length_append, List.length_singleton, lookupCaps]
    cases lookupCaps k t ps.length with
    | error e => rfl
    | ok r =>
      cases r with
      | error e => rfl
      | ok cap =>
        have hkept : (env.setAll (slotBindings cap ps)).Free m.externals := by
          refine hfree.setAll fun q hq => ?_
          have hmem : q.1 ∈ ps.map ParamDecl.name :=
            slotBindings_names cap ps ▸ List.mem_map_of_mem hq
          obtain ⟨p', hp', hname⟩ := List.mem_map.mp hmem
          exact hname ▸ h.externals p' (hps p' (List.mem_append_left _ hp'))
        have hmentions : (env.setAll (slotBindings cap ps)).Free
            (KernelStmt.lookup ps.length p.name).mentions :=
          hkept.mono fun x hx => KMethod.reserved_externals (lookup_mentions _ _ x hx)
        have hx : env.setAll (slotBindings cap ps) p.name = some .unset := by
          rw [Env.setAll_of_not_mem (by rwa [slotBindings_names])]
          exact hunset p (by simp)
        simp only [bind, Except.bind, pure, Except.pure]
        rw [runKernel, if_pos hmentions]
        simp only [hx, ne_eq, not_true_eq_false, if_false, thisTcb, hthis, deref, bind, Except.bind, pure,
          Except.pure]
        cases getCap k ps.length with
        | error e => rfl
        | ok cptr =>
          cases hslot : lookupCapSlot k.slots (cspaceRootOf t) cptr 64#64 with
          | error e => simp only [hslot]
          | ok r =>
            cases r with
            | error e => simp only [hslot]
            | ok s =>
              simp only [hslot, slotBindings_snoc, Env.setAll_append]
              rfl

/-- The length checks, which are left out where there is nothing to check. -/
theorem runKernel_checks {info : MessageTag} (hinfo : env "info" = some (.tag info))
    (hfree : env.Free m.externals) (block : List String) (rest : List KernelStmt) :
    runKernel types k (m.kernelUnmarshalCheckParametersLength ++ rest) env block =
      if info.length.toNat < m.mrParameters.length then
        .ok (some (.answers (.truncatedMessage (BitVec.ofNat 64 info.length.toNat)
          (BitVec.ofNat 64 m.mrParameters.length))))
      else if info.extraCaps.toNat < m.capParameters.length then
        .ok (some (.answers (.truncatedMessage (BitVec.ofNat 64 info.extraCaps.toNat)
          (BitVec.ofNat 64 m.capParameters.length))))
      else runKernel types k rest env block := by
  have hreserved : ∀ names, (∀ x ∈ names, x ∈ reserved) → env.Free names := fun names hnames =>
    hfree.mono fun x hx => KMethod.reserved_externals (hnames x hx)
  have hmrs : ∀ n ss, runKernel types k (.requireMrs n :: ss) env block =
      if info.length.toNat < n then .ok (some (.answers (.truncatedMessage
        (BitVec.ofNat 64 info.length.toNat) (BitVec.ofNat 64 n))))
      else runKernel types k ss env block := fun n ss => by
    have hmentions : env.Free (KernelStmt.requireMrs n).mentions :=
      hreserved ["word_t", "message_length", "msg_truncated_message"] (by decide)
    rw [runKernel, if_pos hmentions]
    simp only [hinfo]
  have hcaps : ∀ n ss, runKernel types k (.requireCaps n :: ss) env block =
      if info.extraCaps.toNat < n then .ok (some (.answers (.truncatedMessage
        (BitVec.ofNat 64 info.extraCaps.toNat) (BitVec.ofNat 64 n))))
      else runKernel types k ss env block := fun n ss => by
    have hmentions : env.Free (KernelStmt.requireCaps n).mentions :=
      hreserved ["word_t", "message_extra_caps", "msg_truncated_message"] (by decide)
    rw [runKernel, if_pos hmentions]
    simp only [hinfo]
  unfold KMethod.kernelUnmarshalCheckParametersLength
  split
  · split
    · simp only [List.cons_append, List.nil_append, hmrs, hcaps]
    · next hzero => simp [hmrs, Nat.eq_zero_of_not_pos hzero]
  · next hzero =>
    rw [Nat.eq_zero_of_not_pos hzero]
    split
    · simp [hcaps]
    · next hzero' => simp [Nat.eq_zero_of_not_pos hzero']

end Cases

/-! ## What a case does -/

/-- The case of a method whose object type has the number `n`. -/
def KMethod.answer (m : KMethod) (n : Nat) (k : Kernel) (t slot : Word) (info : MessageTag) :
    Result (Option Outcome) := do
  let mr ← getMrs k m.mrParameters.length
  if (k.slots slot).cap.type.toNat ≠ n then return some (.answers .illegalOperation)
  if info.length.toNat < m.mrParameters.length then
    return some (.answers (.truncatedMessage (BitVec.ofNat 64 info.length.toNat)
      (BitVec.ofNat 64 m.mrParameters.length)))
  if info.extraCaps.toNat < m.capParameters.length then
    return some (.answers (.truncatedMessage (BitVec.ofNat 64 info.extraCaps.toNat)
      (BitVec.ofNat 64 m.capParameters.length)))
  match ← lookupCaps k t m.capParameters.length with
  | .error e => return some (.answers e)
  | .ok cap => return some (.calls m.kernelFunctionName (.slot slot :: m.values mr cap))

namespace KMethod

variable {m : KMethod} {types : List String} {k : Kernel} {t slot : Word} {n : Nat}

theorem WellNamed.mrs_nodup (h : m.WellNamed) : (m.mrParameters.map ParamDecl.name).Nodup :=
  h.nodup.sublist (List.filter_sublist.map _)

theorem WellNamed.caps_nodup (h : m.WellNamed) : (m.capParameters.map ParamDecl.name).Nodup :=
  h.nodup.sublist (List.filter_sublist.map _)

/-- Scalars and capabilities do not share names. -/
theorem WellNamed.disjoint (h : m.WellNamed) {p : ParamDecl} (hp : p ∈ m.mrParameters) :
    p.name ∉ m.capParameters.map ParamDecl.name := by
  intro hmem
  obtain ⟨q, hq, hname⟩ := List.mem_map.mp hmem
  have heq : q = p := List.inj_on_of_nodup_map h.nodup (mem_parameters_of_cap hq)
    (mem_parameters_of_mr hp) hname
  have hmr := List.mem_filter.mp hp
  have hcap := List.mem_filter.mp hq
  rw [heq] at hcap
  simp only [decide_eq_true_eq] at hmr hcap
  exact hmr.2 hcap.2

theorem WellNamed.own_not_mem (h : m.WellNamed) {x : String} (hx : x ∈ ownVariables)
    {ps : List ParamDecl} (hps : ∀ p ∈ ps, p ∈ m.parameters) : x ∉ ps.map ParamDecl.name := by
  intro hmem
  obtain ⟨p, hp, hname⟩ := List.mem_map.mp hmem
  exact h.own p (hps p hp) (hname ▸ hx)

theorem WellNamed.free_setAll (h : m.WellNamed) {env : Env} (hfree : env.Free m.externals)
    {ps : List ParamDecl} (hps : ∀ p ∈ ps, p ∈ m.parameters) {l : List (String × Value)}
    (hl : l.map Prod.fst = ps.map ParamDecl.name) : (env.setAll l).Free m.externals := by
  refine hfree.setAll fun q hq => ?_
  have hmem : q.1 ∈ ps.map ParamDecl.name := hl ▸ List.mem_map_of_mem hq
  obtain ⟨p, hp, hname⟩ := List.mem_map.mp hmem
  exact hname ▸ h.externals p (hps p hp)

theorem requireType_mentions (m : KMethod) :
    ∀ x ∈ (KernelStmt.requireType m.typeName).mentions, x ∈ m.externals := by
  intro x hx
  simp only [KernelStmt.mentions, List.mem_cons, List.not_mem_nil, or_false] at hx
  rcases hx with rfl | rfl | rfl | rfl | rfl | rfl
  case inr.inr.inr.inr.inl => simp [externals]
  all_goals exact reserved_externals (by decide)

/-- The call at the end, when every parameter has its value. -/
theorem WellNamed.calls (h : m.WellNamed) {env : Env} (mr cap : Nat → Word)
    (hfree : env.Free m.externals) (hslot : env "slot" = some (.slot slot))
    (hmr : ∀ q ∈ m.mrParameters.zipIdx, env q.1.name = some (.word (q.1.type.cast (mr q.2))))
    {block : List String} :
    runKernel types k [.returnCall m.kernelFunctionName ("slot" :: m.parameters.map ParamDecl.name)]
        (env.setAll (slotBindings cap m.capParameters)) block =
      .ok (some (.calls m.kernelFunctionName (.slot slot :: m.values mr cap))) := by
  have hcaps : ∀ p ∈ m.capParameters, p ∈ m.parameters := fun p => mem_parameters_of_cap
  have hnames := slotBindings_names cap m.capParameters
  have hkept : (env.setAll (slotBindings cap m.capParameters)).Free m.externals :=
    h.free_setAll hfree hcaps hnames
  have hmentions : (env.setAll (slotBindings cap m.capParameters)).Free
      (KernelStmt.returnCall m.kernelFunctionName ("slot" :: m.parameters.map ParamDecl.name)).mentions := by
    refine hkept.mono fun x hx => ?_
    rw [List.mem_singleton.mp hx]
    simp [KMethod.externals]
  have hslot' : env.setAll (slotBindings cap m.capParameters) "slot" = some (.slot slot) := by
    rw [Env.setAll_of_not_mem (by rw [hnames]; exact h.own_not_mem (by decide) hcaps), hslot]
  have hvalues : (env.setAll (slotBindings cap m.capParameters)).arguments
      (m.parameters.map ParamDecl.name) = some (m.values mr cap) := by
    refine arguments_eq (fun q hq => ?_) fun q hq => ?_
    · rw [Env.setAll_of_not_mem (by
        rw [hnames]
        exact h.disjoint (List.fst_mem_of_mem_zipIdx hq))]
      exact hmr q hq
    · exact Env.setAll_of_mem (by rw [hnames]; exact h.caps_nodup)
        (p := (q.1.name, .slot (cap q.2))) (List.mem_map_of_mem hq)
  rw [runKernel, if_pos hmentions]
  simp only [Env.arguments, hslot', hvalues, Option.map_some]

/-- A well named case does what its text seems to say. -/
theorem WellNamed.case (h : m.WellNamed) (hthis : k.currentTcb = some t)
    (htype : types.idxOf? m.typeName = some n) (slot : Word) (info : MessageTag) :
    runKernel types k m.kernelUnmarshalAndCall (dispatchEnv slot info) [] =
      m.answer n k t slot info := by
  have hmrs : ∀ p ∈ m.mrParameters, p ∈ m.parameters := fun p => mem_parameters_of_mr
  have hcaps : ∀ p ∈ m.capParameters, p ∈ m.parameters := fun p => mem_parameters_of_cap
  have hfree₀ : (dispatchEnv slot info).Free m.externals := by
    intro x hx
    have hslot : x ≠ "slot" := fun he => h.apart "slot" (by decide) (he ▸ hx)
    have hinfo : x ≠ "info" := fun he => h.apart "info" (by decide) (he ▸ hx)
    simp only [dispatchEnv, if_neg hslot, if_neg hinfo]
  have htext : m.kernelUnmarshalAndCall =
      (m.mrParameters.zipIdx.map fun p => .declareMr p.1.type p.1.name p.2) ++
        ((m.capParameters.map fun p => .declareSlot p.name) ++
          (.requireType m.typeName :: (m.kernelUnmarshalCheckParametersLength ++
            ((m.capParameters.zipIdx.map fun p => .lookup p.2 p.1.name) ++
              [.returnCall m.kernelFunctionName ("slot" :: m.parameters.map ParamDecl.name)])))) := by
    simp [kernelUnmarshalAndCall]
  rw [htext, runKernel_getMrs h hmrs h.mrs_nodup hfree₀, answer]
  cases getMrs k m.mrParameters.length with
  | error e => rfl
  | ok mr =>
    simp only [bind, Except.bind]
    set env₁ := (dispatchEnv slot info).setAll (wordBindings mr 0 m.mrParameters) with henv₁
    have hfree₁ : env₁.Free m.externals := h.free_setAll hfree₀ hmrs (wordBindings_names ..)
    have hblock : ∀ p ∈ m.capParameters, p.name ∉ (m.mrParameters.map ParamDecl.name).reverse := by
      intro p hp hmem
      obtain ⟨q, hq, hname⟩ := List.mem_map.mp (List.mem_reverse.mp hmem)
      exact h.disjoint hq (hname ▸ List.mem_map_of_mem hp)
    rw [runKernel_declareSlots h hcaps h.caps_nodup hblock hfree₁]
    set env₂ := env₁.setAll (m.capParameters.map fun p => (p.name, .unset)) with henv₂
    have hnames₂ : (m.capParameters.map fun p => (p.name, Value.unset)).map Prod.fst =
        m.capParameters.map ParamDecl.name := by simp
    have hfree₂ : env₂.Free m.externals := h.free_setAll hfree₁ hcaps hnames₂
    have hown₂ : ∀ x ∈ ownVariables, env₂ x = dispatchEnv slot info x := by
      intro x hx
      rw [henv₂, Env.setAll_of_not_mem (by rw [hnames₂]; exact h.own_not_mem hx hcaps), henv₁,
        Env.setAll_of_not_mem (by rw [wordBindings_names]; exact h.own_not_mem hx hmrs)]
    have hslot₂ : env₂ "slot" = some (.slot slot) := hown₂ "slot" (by decide)
    have hinfo₂ : env₂ "info" = some (.tag info) := hown₂ "info" (by decide)
    have hmentions : env₂.Free (KernelStmt.requireType m.typeName).mentions :=
      hfree₂.mono (requireType_mentions m)
    rw [runKernel, if_pos hmentions]
    simp only [hslot₂, htype]
    split
    · rfl
    · rw [runKernel_checks hinfo₂ hfree₂]
      split
      · rfl
      · split
        · rfl
        · have hunset : ∀ p ∈ m.capParameters, env₂ p.name = some .unset := fun p hp =>
            Env.setAll_of_mem (by rw [hnames₂]; exact h.caps_nodup) (p := (p.name, .unset))
              (List.mem_map_of_mem hp)
          rw [runKernel_lookups h hcaps hthis h.caps_nodup hunset hfree₂]
          cases lookupCaps k t m.capParameters.length with
          | error e => rfl
          | ok r =>
            cases r with
            | error e => rfl
            | ok cap =>
              simp only [bind, Except.bind]
              exact h.calls mr cap hfree₂ hslot₂ fun q hq => by
                rw [henv₂, Env.setAll_of_not_mem (by
                  rw [hnames₂]
                  exact h.disjoint (List.fst_mem_of_mem_zipIdx hq))]
                exact Env.setAll_of_mem (by rw [wordBindings_names]; exact h.mrs_nodup)
                  (p := (q.1.name, .word (q.1.type.cast (mr q.2)))) (List.mem_map_of_mem hq)

end KMethod

end Tern.Gen
