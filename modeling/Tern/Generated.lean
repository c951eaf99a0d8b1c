import Tern.Generator

/-! What `gen` writes for a well-formed interface: a call of a stub reaches the kernel function
of the same method with the same arguments, and a kernel function is reached in no other way.
For `interface.yml` it is the dispatcher and the stubs of the kernel. -/

namespace Tern.Gen

open Lib

variable {i : Interface} {m : KMethod} {k : Kernel} {t slot : Word} {info : MessageTag}

/-! ## The switch -/

theorem mem_objectTypes (hm : m ∈ i.methods) : m.typeName ∈ (gen i).objectTypes := by
  obtain ⟨d, hd, hmd⟩ := List.mem_flatMap.mp hm
  obtain ⟨method, -, rfl⟩ := List.mem_map.mp hmd
  exact List.mem_map.mpr ⟨d, hd, rfl⟩

theorem mem_methodIds (hm : m ∈ i.methods) : m.identifierName ∈ (gen i).methodIds :=
  List.mem_cons_of_mem _ (List.mem_map_of_mem hm)

/-- The enumerator of a name that is listed. -/
theorem exists_idxOf? {names : List String} {x : String} (h : x ∈ names) :
    ∃ n, names.idxOf? x = some n :=
  Option.isSome_iff_exists.mp (by simpa using h)

theorem eq_of_idxOf? {names : List String} {x y : String} {n : Nat} (hx : names.idxOf? x = some n)
    (hy : names.idxOf? y = some n) : x = y := by
  obtain ⟨hlt, hxn, -⟩ := List.idxOf?_eq_some_iff.mp hx
  obtain ⟨hlt', hyn, -⟩ := List.idxOf?_eq_some_iff.mp hy
  exact hxn.symm.trans hyn

/-- Distinct enumerators tell methods apart. -/
theorem eq_of_label (hi : i.WellFormed) {m' : KMethod} (hm : m ∈ i.methods) (hm' : m' ∈ i.methods)
    {n : Nat} (h : (gen i).methodIds.idxOf? m.identifierName = some n)
    (h' : (gen i).methodIds.idxOf? m'.identifierName = some n) : m = m' :=
  List.inj_on_of_nodup_map (List.nodup_cons.mp hi.ids).2 hm hm' (eq_of_idxOf? h h')

theorem dispatch_none (h : ∀ m ∈ i.methods, (gen i).methodIds.idxOf? m.identifierName ≠
    some info.label.toNat) :
    (gen i).dispatchMethod k slot info = .ok (some (.answers .illegalOperation)) := by
  have hfind : (gen i).cases.find? (fun c => (gen i).methodIds.idxOf? c.1 = some info.label.toNat) =
      none := by
    rw [List.find?_eq_none]
    intro c hc
    obtain ⟨m, hm, rfl⟩ := List.mem_map.mp hc
    simpa using h m hm
  rw [Files.dispatchMethod, hfind]

theorem dispatch_case (hi : i.WellFormed) (hm : m ∈ i.methods) (hthis : k.currentTcb = some t)
    {n : Nat} (hlabel : (gen i).methodIds.idxOf? m.identifierName = some info.label.toNat)
    (htype : (gen i).objectTypes.idxOf? m.typeName = some n) :
    (gen i).dispatchMethod k slot info = m.answer n k t slot info := by
  have hsome : ((gen i).cases.find? fun c =>
      (gen i).methodIds.idxOf? c.1 = some info.label.toNat).isSome := by
    rw [List.find?_isSome]
    exact ⟨_, List.mem_map_of_mem hm, by simpa using hlabel⟩
  obtain ⟨c, hc⟩ := Option.isSome_iff_exists.mp hsome
  obtain ⟨m', hm', rfl⟩ := List.mem_map.mp (List.mem_of_find?_eq_some hc)
  have hlabel' := List.find?_some hc
  simp only [decide_eq_true_eq] at hlabel'
  obtain rfl := eq_of_label hi hm hm' hlabel hlabel'
  rw [Files.dispatchMethod, hc]
  exact (hi.named m hm).case hthis htype slot info

/-! ## What reaches a kernel function -/

/-- The checks of a case have passed, with these registers and slots. -/
structure Checked (m : KMethod) (n : Nat) (k : Kernel) (t slot : Word) (info : MessageTag)
    (mr cap : Nat → Word) : Prop where
  type : (k.slots slot).cap.type.toNat = n
  length : m.mrParameters.length ≤ info.length.toNat
  extra : m.capParameters.length ≤ info.extraCaps.toNat
  registers : getMrs k m.mrParameters.length = .ok mr
  caps : lookupCaps k t m.capParameters.length = .ok (.ok cap)

/-- A case gives an answer, or its checks pass and it calls the kernel function. -/
theorem answer_cases {n : Nat} {o : Option Outcome} (h : m.answer n k t slot info = .ok o) :
    (∃ r, o = some (.answers r)) ∨ ∃ mr cap, Checked m n k t slot info mr cap ∧
      o = some (.calls m.kernelFunctionName (.slot slot :: m.values mr cap)) := by
  simp only [KMethod.answer, bind_eq_ok] at h
  obtain ⟨mr, hmr, h⟩ := h
  split at h
  · cases h
    exact .inl ⟨_, rfl⟩
  next htype =>
  split at h
  · cases h
    exact .inl ⟨_, rfl⟩
  next hlength =>
  split at h
  · cases h
    exact .inl ⟨_, rfl⟩
  next hextra =>
  simp only [bind_eq_ok] at h
  obtain ⟨r, hr, h⟩ := h
  cases r with
  | error e =>
    cases h
    exact .inl ⟨_, rfl⟩
  | ok cap =>
    cases h
    exact .inr ⟨mr, cap, ⟨not_not.mp htype, Nat.not_lt.mp hlength, Nat.not_lt.mp hextra, hmr, hr⟩, rfl⟩

theorem Checked.answer {n : Nat} {mr cap : Nat → Word} (h : Checked m n k t slot info mr cap) :
    m.answer n k t slot info =
      .ok (some (.calls m.kernelFunctionName (.slot slot :: m.values mr cap))) := by
  have hlength := Nat.not_lt.mpr h.length
  have hextra := Nat.not_lt.mpr h.extra
  simp [KMethod.answer, h.type, h.registers, h.caps, hlength, hextra, bind, Except.bind, pure, Except.pure]

/-- Whatever the label, the registers and the capabilities are: the dispatcher that is written for a
well-formed interface is never at a loss, and where it calls a kernel function the label is that
of the method, the capability is of the method's type, the message is long enough, and the
arguments are the registers and the slots that the caller has named. -/
theorem generated_dispatch_sound (hi : i.WellFormed) (hthis : k.currentTcb = some t) {o : Option Outcome}
    (h : (gen i).dispatchMethod k slot info = .ok o) :
    o.isSome ∧ ∀ f args, o = some (.calls f args) → ∃ m ∈ i.methods, ∃ n mr cap,
      f = m.kernelFunctionName ∧ args = .slot slot :: m.values mr cap ∧
      (gen i).methodIds.idxOf? m.identifierName = some info.label.toNat ∧
      (gen i).objectTypes.idxOf? m.typeName = some n ∧ Checked m n k t slot info mr cap := by
  by_cases hlabel : ∃ m ∈ i.methods, (gen i).methodIds.idxOf? m.identifierName = some info.label.toNat
  · obtain ⟨m, hm, hlabel⟩ := hlabel
    obtain ⟨n, hn⟩ := exists_idxOf? (mem_objectTypes hm)
    rw [dispatch_case hi hm hthis hlabel hn] at h
    rcases answer_cases h with ⟨r, rfl⟩ | ⟨mr, cap, hchecked, rfl⟩
    · exact ⟨rfl, fun f args ho => by cases ho⟩
    · refine ⟨rfl, fun f args ho => ?_⟩
      cases ho
      exact ⟨m, hm, n, mr, cap, rfl, rfl, hlabel, hn, hchecked⟩
  · rw [dispatch_none fun m hm hn => hlabel ⟨m, hm, hn⟩] at h
    cases h
    exact ⟨rfl, fun f args ho => by cases ho⟩

/-! ## From a stub to the kernel function -/

/-- What a kernel function is given for the arguments of a call. -/
def KMethod.passed (m : KMethod) (slotOf : Word → Word) (args : String → Word) : List Value :=
  m.parameters.map fun p => if p.type = .cptr then .slot (slotOf (args p.name)) else .word (args p.name)

theorem valuesFrom_eq {mr cap : Nat → Word} {args : String → Word} {slotOf : Word → Word}
    {ps : List ParamDecl} {i c : Nat}
    (hmr : ∀ q ∈ (ps.filter (·.type ≠ .cptr)).zipIdx i, q.1.type.cast (mr q.2) = args q.1.name)
    (hcap : ∀ q ∈ (ps.filter (·.type = .cptr)).zipIdx c, cap q.2 = slotOf (args q.1.name)) :
    valuesFrom mr cap i c ps = ps.map fun p =>
      if p.type = .cptr then .slot (slotOf (args p.name)) else .word (args p.name) := by
  induction ps generalizing i c with
  | nil => rfl
  | cons p ps ih =>
    by_cases hp : p.type = .cptr
    · rw [List.filter_cons_of_neg (by simp [hp])] at hmr
      rw [List.filter_cons_of_pos (by simp [hp]), List.zipIdx_cons] at hcap
      have htail := ih hmr fun q hq => hcap q (List.mem_cons_of_mem _ hq)
      have hhead : cap c = slotOf (args p.name) := hcap (p, c) List.mem_cons_self
      rw [valuesFrom, if_pos hp, htail, hhead, List.map_cons, if_pos hp]
    · rw [List.filter_cons_of_neg (by simp [hp])] at hcap
      rw [List.filter_cons_of_pos (by simp [hp]), List.zipIdx_cons] at hmr
      have htail := ih (fun q hq => hmr q (List.mem_cons_of_mem _ hq)) hcap
      have hhead : p.type.cast (mr i) = args p.name := hmr (p, i) List.mem_cons_self
      rw [valuesFrom, if_neg hp, htail, hhead, List.map_cons, if_neg hp]

/-- For every well-formed interface, each of its methods and all arguments that their types can
hold: the stub writes a buffer and a tag with which the dispatcher calls the kernel function of
that method, with the invoked slot, the same scalars in the same places, and every capability
resolved to the slot that it names. -/
theorem generated_stub_reaches_function (hi : i.WellFormed) (hm : m ∈ i.methods) {buffer : Word}
    {slotOf : Word → Word} (obj : Word) (args : String → Word)
    (hargs : ∀ p ∈ m.mrParameters, p.type.cast (args p.name) = args p.name)
    (hthis : k.currentTcb = some t) (hbuffer : (k.tcbs t).ipcBuffer = some buffer)
    (htype : (gen i).objectTypes.idxOf? m.typeName = some (k.slots slot).cap.type.toNat)
    (hcaps : ∀ p ∈ m.capParameters,
      lookupCapSlot k.slots (cspaceRootOf t) (args p.name) 64#64 = .ok (.ok (slotOf (args p.name)))) :
    ∃ words tag,
      m.usermodeWrapper.run (gen i).methodIds obj args (k.buffers buffer) = some (words, obj, tag) ∧
      (gen i).dispatchMethod { k with buffers := Function.update k.buffers buffer words } slot tag =
        .ok (some (.calls m.kernelFunctionName (.slot slot :: m.passed slotOf args))) := by
  obtain ⟨n, hn⟩ := exists_idxOf? (mem_methodIds hm)
  have hfits := hi.fits m hm
  refine ⟨_, _, (hi.named m hm).stub hn obj args _, ?_⟩
  set words := store (store (k.buffers buffer) 0 (m.scalars args)) (capsOrBadges 0) (m.handles args)
  set k' : Kernel := { k with buffers := Function.update k.buffers buffer words } with hk'
  have hread : thisBuffer k' = .ok buffer := by simp [hk', thisBuffer, hthis, hbuffer]
  have hfile : k'.buffers buffer = words := Function.update_self ..
  have hlabel : (gen i).methodIds.idxOf? m.identifierName = some (newMessageTag (BitVec.ofNat 64 n) 0
      (BitVec.ofNat 64 m.capParameters.length) (BitVec.ofNat 64 m.mrParameters.length)).label.toNat := by
    obtain ⟨hlt, -⟩ := List.idxOf?_eq_some_iff.mp hn
    have hlabels := hi.labels
    rw [hn, newMessageTag, BitVec.toNat_setWidth, BitVec.toNat_ofNat]
    congr 1
    omega
  have hscalar : ∀ q ∈ m.mrParameters.zipIdx, words q.2 = args q.1.name := by
    intro q hq
    obtain ⟨hlt, hget⟩ := List.mem_zipIdx' hq
    have hmax := hfits.mrs
    have hbelow : q.2 < capsOrBadges 0 := by
      simp only [capsOrBadges, messageMaxLength] at *
      omega
    have hlen : q.2 < (m.scalars args).length := by simpa [KMethod.scalars] using hlt
    have hstore : store (k.buffers buffer) 0 (m.scalars args) (0 + q.2) = (m.scalars args)[q.2] :=
      store_add hlen
    rw [Nat.zero_add] at hstore
    refine (store_of_lt hbelow).trans (hstore.trans ?_)
    rw [hget]
    exact List.getElem_map ..
  have hhandle : ∀ q ∈ m.capParameters.zipIdx, words (capsOrBadges q.2) = args q.1.name := by
    intro q hq
    obtain ⟨hlt, hget⟩ := List.mem_zipIdx' hq
    have hlen : q.2 < (m.handles args).length := by simpa [KMethod.handles] using hlt
    have hoffset : capsOrBadges q.2 = capsOrBadges 0 + q.2 := by simp [capsOrBadges]
    rw [hoffset, hget]
    exact (store_add hlen).trans (List.getElem_map ..)
  obtain ⟨mr, hmrs, hmr⟩ := getMrs_ok hread m.mrParameters.length
  obtain ⟨cap, hlookup, hcap⟩ : ∃ cap, lookupCaps k' t m.capParameters.length = .ok (.ok cap) ∧
      ∀ j < m.capParameters.length, cap j = slotOf (k'.buffers buffer (capsOrBadges j)) := by
    refine lookupCaps_resolved hread fun j hj => ?_
    have hmem : (m.capParameters[j], j) ∈ m.capParameters.zipIdx := by simp [List.mk_mem_zipIdx_iff_getElem?]
    rw [hfile, hhandle _ hmem]
    exact hcaps _ (List.getElem_mem hj)
  have hchecked : Checked m (k.slots slot).cap.type.toNat k' t slot (newMessageTag (BitVec.ofNat 64 n) 0
      (BitVec.ofNat 64 m.capParameters.length) (BitVec.ofNat 64 m.mrParameters.length)) mr cap := by
    refine ⟨rfl, ?_, ?_, hmrs, hlookup⟩
    · have hmax := hfits.mrs
      simp only [newMessageTag, BitVec.toNat_setWidth, BitVec.toNat_ofNat]
      simp only [messageMaxLength] at hmax
      omega
    · have hmax := hfits.caps
      simp only [newMessageTag, BitVec.toNat_setWidth, BitVec.toNat_ofNat]
      omega
  rw [dispatch_case hi hm (k := k') hthis hlabel htype, hchecked.answer]
  have hvalues : m.values mr cap = m.passed slotOf args := by
    refine valuesFrom_eq (fun q hq => ?_) fun q hq => ?_
    · have hlt := (List.mem_zipIdx' hq).1
      rw [hmr q.2 hlt, hfile, hscalar q hq]
      exact hargs q.1 (List.fst_mem_of_mem_zipIdx hq)
    · have hlt := (List.mem_zipIdx' hq).1
      rw [hcap q.2 hlt, hfile, hhandle q hq]
  rw [hvalues]

/-! ## `interface.yml` -/

def wordT : CType := .named "word_t"
def rightsT : CType := .named "cap_rights_t"
def attributesT : CType := .named "x86_vm_attributes_t"
def contextT : CType := .pointer "user_context_t"

/-- The parameters of the five methods that map something. -/
def mapMethod : MethodDecl :=
  ⟨"map", [⟨"vspace", .cptr⟩, ⟨"vaddr", wordT⟩, ⟨"attr", attributesT⟩]⟩

def interfaceYml : Interface := [
  ⟨"null", []⟩, ⟨"endpoint", []⟩, ⟨"reply", []⟩, ⟨"notification", []⟩,
  ⟨"cnode", [
    ⟨"copy", [⟨"dest_index", wordT⟩, ⟨"dest_depth", .uint8⟩, ⟨"src_root", .cptr⟩,
      ⟨"src_index", wordT⟩, ⟨"src_depth", .uint8⟩, ⟨"rights", rightsT⟩]⟩,
    ⟨"delete", [⟨"index", wordT⟩, ⟨"depth", .uint8⟩]⟩,
    ⟨"mint", [⟨"dest_index", wordT⟩, ⟨"dest_depth", .uint8⟩, ⟨"src_root", .cptr⟩,
      ⟨"src_index", wordT⟩, ⟨"src_depth", .uint8⟩, ⟨"rights", rightsT⟩, ⟨"badge", wordT⟩]⟩,
    ⟨"revoke", [⟨"index", wordT⟩, ⟨"depth", .uint8⟩]⟩,
    ⟨"debug_print", []⟩,
    ⟨"debug_get", [⟨"index", wordT⟩, ⟨"depth", .uint8⟩]⟩]⟩,
  ⟨"tcb", [
    ⟨"configure", [⟨"fault_ep", wordT⟩, ⟨"cspace_root", .cptr⟩, ⟨"vspace_root", .cptr⟩,
      ⟨"buffer", wordT⟩, ⟨"buffer_frame", .cptr⟩]⟩,
    ⟨"read_registers", [⟨"suspend_source", .bool⟩, ⟨"arch_flags", wordT⟩, ⟨"count", wordT⟩,
      ⟨"regs", contextT⟩]⟩,
    ⟨"resume", []⟩,
    ⟨"bind_notification", [⟨"notification", .cptr⟩]⟩,
    ⟨"set_tls_base", [⟨"tls_base", wordT⟩]⟩,
    ⟨"suspend", []⟩,
    ⟨"write_registers", [⟨"resume_target", .bool⟩, ⟨"arch_flags", wordT⟩, ⟨"count", wordT⟩,
      ⟨"regs", contextT⟩]⟩,
    ⟨"set_debug", [⟨"flags", wordT⟩]⟩,
    ⟨"set_name", [⟨"name", .pointer "char"⟩, ⟨"len", wordT⟩]⟩]⟩,
  ⟨"untyped", [
    ⟨"retype", [⟨"type", wordT⟩, ⟨"size_bits", wordT⟩, ⟨"root", .cptr⟩, ⟨"node_index", wordT⟩,
      ⟨"node_depth", .uint8⟩, ⟨"node_offset", wordT⟩, ⟨"num_objects", wordT⟩]⟩]⟩,
  ⟨"x86_64_io_port", [
    ⟨"in8", [⟨"port", wordT⟩]⟩, ⟨"in16", [⟨"port", wordT⟩]⟩, ⟨"in32", [⟨"port", wordT⟩]⟩,
    ⟨"out8", [⟨"port", wordT⟩, ⟨"value", wordT⟩]⟩, ⟨"out16", [⟨"port", wordT⟩, ⟨"value", wordT⟩]⟩,
    ⟨"out32", [⟨"port", wordT⟩, ⟨"value", wordT⟩]⟩]⟩,
  ⟨"x86_64_io_port_control", [
    ⟨"issue", [⟨"first_port", wordT⟩, ⟨"last_port", wordT⟩, ⟨"root", .cptr⟩, ⟨"index", wordT⟩,
      ⟨"depth", .uint8⟩]⟩]⟩,
  ⟨"x86_64_pml4", []⟩, ⟨"x86_64_pdpt", [mapMethod]⟩, ⟨"x86_64_pd", [mapMethod]⟩,
  ⟨"x86_64_pt", [mapMethod]⟩, ⟨"x86_64_page", [mapMethod]⟩, ⟨"x86_64_huge_page", [mapMethod]⟩,
  ⟨"irq_control", [
    ⟨"get", [⟨"irq", wordT⟩, ⟨"root", .cptr⟩, ⟨"index", wordT⟩, ⟨"depth", .uint8⟩]⟩]⟩,
  ⟨"irq_handler", [⟨"ack", []⟩, ⟨"clear", []⟩, ⟨"set_notification", [⟨"notification", .cptr⟩]⟩]⟩]

theorem interfaceYml_wellFormed : interfaceYml.WellFormed where
  types := by decide +kernel
  ids := by decide +kernel
  labels := by decide +kernel
  names := by decide +kernel
  named := by
    have hall : ∀ m ∈ interfaceYml.methods, (m.parameters.map ParamDecl.name).Nodup ∧
        (∀ p ∈ m.parameters, p.name ∉ ownVariables) ∧ (∀ p ∈ m.parameters, p.name ∉ m.externals) ∧
        ∀ x ∈ ownVariables, x ∉ m.externals := by decide +kernel
    have hnames : ∀ m ∈ interfaceYml.methods,
        (∀ p ∈ m.parameters, isName p.name = true ∧ p.name ∉ keywords) ∧
        isName m.name = true ∧ m.kernelFunctionName ∉ reserved ++ keywords := by decide +kernel
    exact fun m hm => ⟨(hall m hm).1, (hall m hm).2.1, (hall m hm).2.2.1, (hall m hm).2.2.2,
      (hnames m hm).1, (hnames m hm).2⟩
  fits := by
    have hall : ∀ m ∈ interfaceYml.methods, m.mrParameters.length ≤ messageMaxLength ∧
        m.capParameters.length ≤ 3 := by decide +kernel
    exact fun m hm => ⟨(hall m hm).1, (hall m hm).2⟩

/-- The example is `tcb_configure` on the worker, by names. -/
def configureArguments (x : String) : Word :=
  if x = "cspace_root" then 6#64 else if x = "vspace_root" then 7#64
  else if x = "buffer_frame" then 8#64 else if x = "fault_ep" then 9#64 else 0x40000#64

def configureMethod : KMethod :=
  ⟨"tcb", "configure", [⟨"fault_ep", wordT⟩, ⟨"cspace_root", .cptr⟩, ⟨"vspace_root", .cptr⟩,
    ⟨"buffer", wordT⟩, ⟨"buffer_frame", .cptr⟩]⟩

theorem configureMethod_mem : configureMethod ∈ interfaceYml.methods := by
  refine List.mem_of_getElem? (i := 6) ?_
  rfl

theorem generated_stub_reaches_configure : ∃ words tag,
    configureMethod.usermodeWrapper.run (gen interfaceYml).methodIds 5#64 configureArguments
      (configureKernel.buffers (initTcb + 0x1000#64)) = some (words, 5#64, tag) ∧
    (gen interfaceYml).dispatchMethod { configureKernel with
        buffers := Function.update configureKernel.buffers (initTcb + 0x1000#64) words }
        (initSlot 5) tag =
      .ok (some (.calls "tcb_configure" [.slot (initSlot 5), .word 9#64, .slot (initSlot 6),
        .slot (initSlot 7), .word 0x40000#64, .slot (initSlot 8)])) := by
  have hfound : ∀ p ∈ configureMethod.capParameters,
      lookupCapSlot configureKernel.slots (cspaceRootOf initTcb) (configureArguments p.name) 64#64 =
        .ok (.ok (slotAt initCnode (configureArguments p.name))) := by decide +kernel
  exact generated_stub_reaches_function interfaceYml_wellFormed configureMethod_mem
    5#64 configureArguments (by decide +kernel) rfl rfl (by decide +kernel) hfound

/-- A resume of the worker. -/
theorem generated_dispatch_sound_resume : ∃ o,
    (gen interfaceYml).dispatchMethod configureKernel (initSlot 5) (resumeFrame 5).tag = .ok o ∧
      o.isSome := by
  have hruns : ((gen interfaceYml).dispatchMethod configureKernel (initSlot 5)
      (resumeFrame 5).tag).toOption.isSome := by decide +kernel
  cases ho : (gen interfaceYml).dispatchMethod configureKernel (initSlot 5) (resumeFrame 5).tag with
  | error e =>
    rw [ho] at hruns
    cases hruns
  | ok o => exact ⟨o, rfl, (generated_dispatch_sound interfaceYml_wellFormed rfl ho).1⟩

/-! ## The dispatcher of the kernel -/

/-- The methods in the order of the interface. -/
def allMethods : List Method :=
  [.cnodeCopy, .cnodeDelete, .cnodeMint, .cnodeRevoke, .cnodeDebugPrint, .cnodeDebugGet, .tcbConfigure,
    .tcbReadRegisters, .tcbResume, .tcbBindNotification, .tcbSetTlsBase, .tcbSuspend, .tcbWriteRegisters,
    .tcbSetDebug, .tcbSetName, .untypedRetype, .ioPortIn8, .ioPortIn16, .ioPortIn32, .ioPortOut8,
    .ioPortOut16, .ioPortOut32, .ioPortControlIssue, .pdptMap, .pdMap, .ptMap, .pageMap, .hugePageMap,
    .irqControlGet, .irqHandlerAck, .irqHandlerClear, .irqHandlerSetNotification]

def kmethod (m : Method) : KMethod := interfaceYml.methods[m.ctorIdx]?.getD ⟨"", "", []⟩

theorem mem_allMethods (m : Method) : m ∈ allMethods := by cases m <;> decide

theorem methods_eq : interfaceYml.methods = allMethods.map kmethod := by rfl

theorem allMethods_ctorIdx (m : Method) : allMethods[m.ctorIdx]? = some m := by cases m <;> rfl

/-- In a list of distinct names a name is found at its own place. -/
theorem idxOf?_of_nodup {names : List String} (hnodup : names.Nodup) {n : Nat} {x : String}
    (h : names[n]? = some x) : names.idxOf? x = some n := by
  obtain ⟨hlt, hx⟩ := List.getElem?_eq_some_iff.mp h
  refine List.idxOf?_eq_some_iff.mpr ⟨hlt, hx, fun j hj he => ?_⟩
  exact hj.ne (hnodup.getElem_inj_iff.mp (he.trans hx.symm))

theorem kmethod_label (m : Method) :
    (gen interfaceYml).methodIds.idxOf? (kmethod m).identifierName = some (m.ctorIdx + 1) := by
  refine idxOf?_of_nodup interfaceYml_wellFormed.ids ?_
  simp only [gen, methods_eq, List.getElem?_cons_succ, List.getElem?_map, allMethods_ctorIdx,
    Option.map_some]

theorem kmethod_type (m : Method) : (gen interfaceYml).objectTypes.idxOf? (kmethod m).typeName =
    some m.signature.type.toNat :=
  idxOf?_of_nodup interfaceYml_wellFormed.types (by cases m <;> rfl)

theorem kmethod_mrs (m : Method) : (kmethod m).mrParameters.length = m.signature.params := by
  cases m <;> rfl

theorem kmethod_caps (m : Method) : (kmethod m).capParameters.length = m.signature.caps := by
  cases m <;> rfl

theorem ofLabel?_eq (label : BitVec 50) :
    Method.ofLabel? label = (none :: allMethods.map some)[label.toNat]?.getD none := by rfl

theorem ofLabel?_label {label : BitVec 50} {m : Method} (h : Method.ofLabel? label = some m) :
    label.toNat = m.ctorIdx + 1 := by
  rw [ofLabel?_eq] at h
  cases hn : label.toNat with
  | zero =>
    rw [hn] at h
    cases h
  | succ n =>
    rw [hn, List.getElem?_cons_succ, List.getElem?_map] at h
    cases hm : allMethods[n]? with
    | none =>
      rw [hm] at h
      cases h
    | some m' =>
      rw [hm] at h
      cases h
      obtain ⟨hlt, hget⟩ := List.getElem?_eq_some_iff.mp hm
      have hall : ∀ j : Fin allMethods.length, (allMethods.get j).ctorIdx = j := by decide
      have hidx := hall ⟨n, hlt⟩
      rw [List.get_eq_getElem, hget] at hidx
      rw [hidx]

/-- The parameter that a declaration stands for. -/
def CType.param : CType → Param Word
  | .uint8 => uint8T
  | .bool => boolT
  | .cptr => cptrT
  | .named _ | .pointer _ => Tern.wordT

def paramsOf (ps : List ParamDecl) : List (Param Word) := ps.map fun p => p.type.param

theorem parameters_eq (m : Method) : m.parameters = paramsOf (kmethod m).parameters := by
  cases m <;> rfl

/-- Values as arguments of a handler. -/
def readArgs : (ps : List (Param Word)) → List Value → Option (Args Word ps)
  | [], [] => some ()
  | .scalar s :: ps, .word w :: vs => (readArgs ps vs).map fun args => (s.ofWord w, args)
  | .handle :: ps, .slot p :: vs => (readArgs ps vs).map fun args => (p, args)
  | _, _ => none

theorem readArgs_scalar {scalar : Scalar Word} {ps : List (Param Word)} {vs : List Value} {w : Word}
    (mr : Nat → Word) {cap : Nat → Word} (hw : scalar.ofWord w = scalar.ofWord (mr 0))
    (h : readArgs ps vs = some (Args.read (fun j => mr (j + 1)) cap ps)) :
    readArgs (.scalar scalar :: ps) (.word w :: vs) =
      some (Args.read mr cap (.scalar scalar :: ps)) := by
  simp only [readArgs, h, Option.map_some, hw, Args.read]

theorem readArgs_handle {ps : List (Param Word)} {vs : List Value} {mr : Nat → Word} (cap : Nat → Word)
    (h : readArgs ps vs = some (Args.read mr (fun j => cap (j + 1)) ps)) :
    readArgs (.handle :: ps) (.slot (cap 0) :: vs) = some (Args.read mr cap (.handle :: ps)) := by
  simp only [readArgs, h, Option.map_some, Args.read]

/-- The casts of the dispatcher are those of the parameter types. -/
theorem readArgs_values (ps : List ParamDecl) (mr cap : Nat → Word) (i c : Nat) :
    readArgs (paramsOf ps) (valuesFrom mr cap i c ps) =
      some (Args.read (fun j => mr (i + j)) (fun j => cap (c + j)) (paramsOf ps)) := by
  induction ps generalizing i c with
  | nil => rfl
  | cons p ps ih =>
    have hmr : (fun j => mr (i + 1 + j)) = fun j => mr (i + (j + 1)) :=
      funext fun j => congrArg mr (by omega)
    have hcap : (fun j => cap (c + 1 + j)) = fun j => cap (c + (j + 1)) :=
      funext fun j => congrArg cap (by omega)
    have hscalar := ih (i + 1) c
    rw [hmr] at hscalar
    have hhandle := ih i (c + 1)
    rw [hcap] at hhandle
    obtain ⟨name, type⟩ := p
    cases type with
    | named x => exact readArgs_scalar (fun j => mr (i + j)) rfl hscalar
    | uint8 =>
      have hw : uint8Scalar.ofWord (CType.uint8.cast (mr i)) = uint8Scalar.ofWord (mr i) := by
        simp [uint8Scalar, CType.cast]
      exact readArgs_scalar (fun j => mr (i + j)) hw hscalar
    | bool =>
      have hw : boolScalar.ofWord (CType.bool.cast (mr i)) = boolScalar.ofWord (mr i) :=
        boolScalar.ofWord_toWord _
      exact readArgs_scalar (fun j => mr (i + j)) hw hscalar
    | pointer x => exact readArgs_scalar (fun j => mr (i + j)) rfl hscalar
    | cptr => exact readArgs_handle (fun j => cap (c + j)) hhandle

theorem readArgs_arguments (m : Method) (mr cap : Nat → Word) :
    readArgs m.parameters ((kmethod m).values mr cap) = some (m.arguments mr cap) := by
  have hread : ∀ qs, qs = paramsOf (kmethod m).parameters →
      readArgs qs ((kmethod m).values mr cap) = some (Args.read mr cap qs) := by
    rintro qs rfl
    have h := readArgs_values (kmethod m).parameters mr cap 0 0
    simp only [Nat.zero_add] at h
    exact h
  rw [m.arguments_eq]
  exact hread _ (parameters_eq m)

/-- The kernel functions that the dispatcher is linked with. -/
def kernelFunction (P : Platform) (fuel : Nat) (k : Kernel) (f : String) :
    List Value → Option (Result (Reply × Kernel))
  | .slot slot :: vs => do
    let m ← allMethods.find? fun m => (kmethod m).kernelFunctionName = f
    let args ← readArgs m.parameters vs
    return m.handler P fuel k slot args
  | _ => none

/-- How the dispatcher goes on when it has run. -/
def finish (P : Platform) (fuel : Nat) (k : Kernel) :
    Result (Option Outcome) → Option (Result (Reply × Kernel))
  | .error e => some (.error e)
  | .ok none => none
  | .ok (some (.answers r)) => some (.ok (r, k))
  | .ok (some (.calls f args)) => kernelFunction P fuel k f args

/-- The dispatcher that `gen` writes for `interface.yml`, with the kernel functions. -/
def dispatch (P : Platform) (fuel : Nat) (k : Kernel) (slot : Word) (info : MessageTag) :
    Option (Result (Reply × Kernel)) :=
  finish P fuel k ((gen interfaceYml).dispatchMethod k slot info)

theorem kernelFunction_eq (P : Platform) (fuel : Nat) (m : Method) (mr cap : Nat → Word) :
    kernelFunction P fuel k (kmethod m).kernelFunctionName (.slot slot :: (kmethod m).values mr cap) =
      some (m.handler P fuel k slot (m.arguments mr cap)) := by
  have hfind : allMethods.find? (fun m' => (kmethod m').kernelFunctionName = (kmethod m).kernelFunctionName) =
      some m := by
    cases m <;> decide +kernel
  simp only [kernelFunction, hfind, readArgs_arguments, bind, Option.bind, pure]

theorem toNat_injective {c c' : CapType} (h : c.toNat = c'.toNat) : c = c' := by
  have hall : ∀ n, ∀ c c' : CapType, c.toNat = n → c'.toNat = n → c = c' := by
    intro n c c' hc hc'
    subst hc
    revert hc'
    cases c <;> cases c' <;> decide
  exact hall _ c c' rfl h.symm

/-- The checks of a case are those of the kernel's dispatcher. -/
theorem answer_eq (P : Platform) (fuel : Nat) {m : Method} (hthis : k.currentTcb = some t)
    (hm : Method.ofLabel? info.label = some m) :
    finish P fuel k ((kmethod m).answer m.signature.type.toNat k t slot info) =
      some (Tern.dispatchMethod P fuel k slot info) := by
  simp only [KMethod.answer, Tern.dispatchMethod, hm, kmethod_mrs, kmethod_caps, thisTcb, hthis, deref]
  cases getMrs k m.signature.params with
  | error e => rfl
  | ok mr =>
    simp only [bind, Except.bind]
    by_cases htype : (k.slots slot).cap.type = m.signature.type
    · rw [if_neg (not_not.mpr (congrArg CapType.toNat htype)), if_neg (not_not.mpr htype)]
      by_cases hlength : info.length.toNat < m.signature.params
      · rw [if_pos hlength, if_pos hlength]
        rfl
      rw [if_neg hlength, if_neg hlength]
      by_cases hextra : info.extraCaps.toNat < m.signature.caps
      · rw [if_pos hextra, if_pos hextra]
        rfl
      rw [if_neg hextra, if_neg hextra]
      cases lookupCaps k t m.signature.caps with
      | error e => rfl
      | ok r =>
        cases r with
        | error e => rfl
        | ok cap =>
          exact (kernelFunction_eq P fuel m mr cap).trans
            (congrArg some (invokeMethod_eq_handler P fuel k slot mr cap m).symm)
    · rw [if_pos fun he => htype (toNat_injective he), if_pos htype]
      rfl

/-- For every state, message and capability: what `gen` writes for `interface.yml`, linked with
the kernel functions, is the dispatcher of the kernel. -/
theorem interface_dispatch_eq (P : Platform) (fuel : Nat) (hthis : k.currentTcb = some t) (slot : Word)
    (info : MessageTag) : dispatch P fuel k slot info = some (Tern.dispatchMethod P fuel k slot info) := by
  unfold dispatch
  cases hm : Method.ofLabel? info.label with
  | some m =>
    have hlabel : (gen interfaceYml).methodIds.idxOf? (kmethod m).identifierName =
        some info.label.toNat := by
      rw [ofLabel?_label hm]
      exact kmethod_label m
    have hmem : kmethod m ∈ interfaceYml.methods :=
      methods_eq ▸ List.mem_map_of_mem (mem_allMethods m)
    rw [dispatch_case interfaceYml_wellFormed hmem hthis hlabel (kmethod_type m)]
    exact answer_eq P fuel hthis hm
  | none =>
    have hnone : ∀ m' ∈ interfaceYml.methods, (gen interfaceYml).methodIds.idxOf? m'.identifierName ≠
        some info.label.toNat := by
      intro m' hm' hlabel
      rw [methods_eq] at hm'
      obtain ⟨m, -, rfl⟩ := List.mem_map.mp hm'
      rw [kmethod_label m, Option.some.injEq] at hlabel
      have hsome := m.ofLabel?_id
      have hid : m.id.setWidth 50 = info.label := by
        refine BitVec.eq_of_toNat_eq ?_
        rw [← hlabel]
        cases m <;> rfl
      rw [hid, hm] at hsome
      cases hsome
    rw [dispatch_none hnone]
    simp only [Tern.dispatchMethod, hm]
    rfl

theorem interface_dispatch_resume : dispatch examplePlatform 0 configureKernel (initSlot 5)
    (resumeFrame 5).tag =
      some (Tern.dispatchMethod examplePlatform 0 configureKernel (initSlot 5) (resumeFrame 5).tag) :=
  interface_dispatch_eq examplePlatform 0 (t := initTcb) rfl _ _

/-! ## The stubs of the user library -/

/-- The arguments of a call in the order of the parameters. -/
def wordsOf : {ps : List (Param Word)} → Args Word ps → List Word
  | [], _ => []
  | .scalar s :: _, (v, args) => s.toWord v :: wordsOf args
  | .handle :: _, (a, args) => a :: wordsOf args

/-- The value of the parameter of a name. -/
def byName (ps : List ParamDecl) (ws : List Word) (x : String) : Word :=
  (((ps.map ParamDecl.name).zip ws).lookup x).getD 0#64

theorem byName_tail {p q : ParamDecl} {ps : List ParamDecl} {w : Word} {ws : List Word}
    (hp : p.name ∉ ps.map ParamDecl.name) (hq : q ∈ ps) :
    byName (p :: ps) (w :: ws) q.name = byName ps ws q.name := by
  have hne : (q.name == p.name) = false :=
    beq_eq_false_iff_ne.mpr fun he => hp (he ▸ List.mem_map_of_mem hq)
  simp only [byName, List.map_cons, List.zip_cons_cons, List.lookup_cons, hne]

theorem byName_head (p : ParamDecl) (ps : List ParamDecl) (w : Word) (ws : List Word) :
    byName (p :: ps) (w :: ws) p.name = w := by
  simp [byName]

theorem byName_filter {p : ParamDecl} {ps : List ParamDecl} (hp : p.name ∉ ps.map ParamDecl.name) (w : Word)
    (ws : List Word) (r : ParamDecl → Bool) :
    ((p :: ps).filter r).map (fun q => byName (p :: ps) (w :: ws) q.name) =
      (if r p then [w] else []) ++ (ps.filter r).map fun q => byName ps ws q.name := by
  have htail : (ps.filter r).map (fun q => byName (p :: ps) (w :: ws) q.name) =
      (ps.filter r).map fun q => byName ps ws q.name :=
    List.map_congr_left fun q hq => byName_tail hp (List.mem_of_mem_filter hq)
  by_cases hr : r p
  · rw [List.filter_cons_of_pos hr, List.map_cons, htail, byName_head, if_pos hr]
    rfl
  · rw [List.filter_cons_of_neg hr, htail, if_neg hr]
    rfl

/-- By name, each kind of arguments is in the order of the parameters. -/
theorem byName_args {ps : List ParamDecl} (hnodup : (ps.map ParamDecl.name).Nodup)
    (args : Args Word (paramsOf ps)) :
    (ps.filter (·.type ≠ .cptr)).map (fun p => byName ps (wordsOf args) p.name) = args.scalars ∧
      (ps.filter (·.type = .cptr)).map (fun p => byName ps (wordsOf args) p.name) = args.handles := by
  induction ps with
  | nil => exact ⟨rfl, rfl⟩
  | cons p ps ih =>
    rw [List.map_cons, List.nodup_cons] at hnodup
    obtain ⟨name, type⟩ := p
    have hscalar : type ≠ .cptr → ∀ (w : Word) (args : Args Word (paramsOf ps)),
        ((⟨name, type⟩ :: ps).filter (·.type ≠ .cptr)).map
            (fun p => byName (⟨name, type⟩ :: ps) (w :: wordsOf args) p.name) = w :: args.scalars ∧
          ((⟨name, type⟩ :: ps).filter (·.type = .cptr)).map
            (fun p => byName (⟨name, type⟩ :: ps) (w :: wordsOf args) p.name) = args.handles := by
      intro htype w args
      rw [byName_filter hnodup.1, byName_filter hnodup.1, (ih hnodup.2 args).1, (ih hnodup.2 args).2]
      simp [htype]
    cases type with
    | named x => exact hscalar (by simp) args.1 args.2
    | uint8 => exact hscalar (by decide) _ args.2
    | bool => exact hscalar (by decide) _ args.2
    | pointer x => exact hscalar (by simp) args.1 args.2
    | cptr =>
      obtain ⟨a, args⟩ := args
      have hrest := ih hnodup.2 args
      refine ⟨(byName_filter hnodup.1 a (wordsOf args) _).trans hrest.1, ?_⟩
      exact (byName_filter hnodup.1 a (wordsOf args) _).trans (congrArg (a :: ·) hrest.2)

/-- For every method and all arguments: the stub that `gen` writes for `interface.yml` is the one of
the user library. -/
theorem interface_stub_eq (m : Method) (args : Args Word m.parameters) (obj : Word) (buffer : IpcBuffer) :
    (kmethod m).usermodeWrapper.run (gen interfaceYml).methodIds obj
        (byName (kmethod m).parameters (wordsOf args)) buffer =
      some ((m.stub args).write buffer, obj, (m.stub args).tag) := by
  have hmem : kmethod m ∈ interfaceYml.methods :=
    methods_eq ▸ List.mem_map_of_mem (mem_allMethods m)
  have hnamed := interfaceYml_wellFormed.named _ hmem
  have hbyName : ∀ qs (args : Args Word qs), qs = paramsOf (kmethod m).parameters →
      (kmethod m).scalars (byName (kmethod m).parameters (wordsOf args)) = args.scalars ∧
      (kmethod m).handles (byName (kmethod m).parameters (wordsOf args)) = args.handles := by
    rintro qs args rfl
    exact byName_args hnamed.nodup args
  obtain ⟨hscalars, hhandles⟩ := hbyName _ args (parameters_eq m)
  rw [hnamed.stub (kmethod_label m), hscalars, hhandles, m.stub_eq, scalars_length, handles_length,
    kmethod_mrs, kmethod_caps]
  rfl

end Tern.Gen
