import ClassAsm.Proofs.Assembly.Declarations
import ClassAsm.Proofs.Registry.Changes

/-! The operator table of a class. An operator method is entered under its name in lower case, in the
place of the entry that the key had before. So a key stands for the method for it that is declared
last, and an operator method is lost if a later one is spelled as it is up to the case of letters. -/

namespace ClassAsm

/-- What an operator method is entered as. -/
def Signature.entry (s : Signature) : String × String := (s.name.toLower, s.name)

theorem Operation.exists_key? {key : String} (h : key ∈ keys) :
    ∃ op : Operation, op.key? = some key := by
  have all : ∀ key ∈ keys, ∃ op ∈ dispatched, op.key? = some key := by decide
  obtain ⟨op, -, hop⟩ := all key h
  exact ⟨op, hop⟩

namespace Class

def operatorMethods (c : Class) : List Method := c.methods.filter (·.sig.isOperator)

/-- An entry for each operator method, in the order of declaration. -/
def entries (c : Class) : List (String × String) :=
  ((c.methods.map (·.sig)).filter (·.isOperator)).map Signature.entry

/-- The table and the operator methods belong together one to one. -/
structure Corresponds (c : Class) : Prop where
  entries : c.operators.Perm (c.operatorMethods.map (·.sig.entry))
  found : ∀ m ∈ c.operatorMethods, ∃ op : Operation, op.key? = some m.sig.name.toLower ∧
    c.operator? op = some m

/-- Each key of the table stands for the last of the operator methods for it. -/
structure Tabulated (c : Class) : Prop where
  keys : (c.operators.map Prod.fst).Nodup
  known : ∀ e ∈ c.entries, e.1 ∈ Operation.keys
  last : ∀ key, c.operators.lookup key = c.entries.reverse.lookup key

variable {c c' : Class}

theorem entries_eq (c : Class) : c.entries = c.operatorMethods.map (·.sig.entry) := by
  rw [entries, operatorMethods, List.filter_map, List.map_map]
  rfl

/-! Entering one method after the other. -/

namespace Tabulated

theorem bare (methods : c.methods = []) (operators : c.operators = []) : c.Tabulated := by
  have none : c.entries = [] := by rw [entries, methods]; rfl
  exact ⟨by simp [operators], by simp [none], by simp [operators, none]⟩

theorem of_sigs (h : c.Tabulated) (operators : c'.operators = c.operators)
    (sigs : c'.methods.map (·.sig) = c.methods.map (·.sig)) : c'.Tabulated := by
  have same : c'.entries = c.entries := by rw [entries, sigs, entries]
  exact ⟨operators ▸ h.keys, same ▸ h.known, fun key => by rw [operators, same, h.last]⟩

theorem pushMethod (h : c.Tabulated) {m : Method} (new : c.method? m.sig.name = none)
    (plain : m.sig.isOperator = false) : (c.pushMethod m new).Tabulated := by
  have same : (c.pushMethod m new).entries = c.entries := by
    simp [entries, plain]
  exact ⟨h.keys, same ▸ h.known, fun key => same ▸ h.last key⟩

theorem pushOperator (h : c.Tabulated) {m : Method}
    (new : (c.registerOperator m.sig.name.toLower m.sig.name).method? m.sig.name = none)
    (flagged : m.sig.isOperator = true) (known : m.sig.name.toLower ∈ Operation.keys) :
    ((c.registerOperator m.sig.name.toLower m.sig.name).pushMethod m new).Tabulated := by
  have more : ((c.registerOperator m.sig.name.toLower m.sig.name).pushMethod m new).entries =
      c.entries ++ [m.sig.entry] := by
    rw [entries, methods_pushMethod, List.map_append, List.filter_append, List.map_append]
    simp [flagged, entries, methods, registerOperator]
  refine ⟨?_, ?_, fun key => ?_⟩
  · refine List.nodup_cons.2 ⟨?_, ?_⟩
    · simp
    · exact h.keys.sublist (List.filter_sublist.map _)
  · rw [more]
    simpa [or_imp, forall_and] using ⟨fun a b hab => h.known (a, b) hab, known⟩
  · rw [more, List.reverse_append, List.reverse_singleton, List.singleton_append]
    by_cases here : key = m.sig.name.toLower
    · subst here
      simp [registerOperator, Signature.entry]
    · have other : (key == m.sig.name.toLower) = false := beq_false_of_ne here
      rw [operators_pushMethod]
      simp only [registerOperator, Signature.entry, List.lookup_cons, other,
        lookup_filter_ne _ other, h.last]

/-! What the table says. -/

theorem mem_operators (h : c.Tabulated) {e : String × String} (he : e ∈ c.operators) :
    e ∈ c.entries := by
  have found := (lookup_eq_some_iff_mem h.keys).2 he
  rw [h.last] at found
  obtain ⟨before, after, split, -⟩ := List.lookup_eq_some_iff.1 found
  exact List.mem_reverse.1 (by simp [split])

theorem lookup_entries (ms : List Method) (key : String) :
    (ms.map (·.sig.entry)).lookup key =
      (ms.find? (·.sig.name.toLower == key)).map (·.sig.name) := by
  induction ms with
  | nil => rfl
  | cons m ms ih =>
    rw [List.map_cons, Signature.entry, List.lookup_cons, List.find?_cons,
      Bool.beq_comm (a := m.sig.name.toLower)]
    split
    · simp
    · simp [ih]

theorem operator?_eq (h : c.Tabulated) {op : Operation} {key : String} (hk : op.key? = some key) :
    c.operator? op = c.operatorMethods.reverse.find? (·.sig.name.toLower == key) := by
  have entered : c.operators.lookup key =
      (c.operatorMethods.reverse.find? (·.sig.name.toLower == key)).map (·.sig.name) := by
    rw [h.last, entries_eq, ← List.map_reverse, lookup_entries]
  cases found : c.operatorMethods.reverse.find? (·.sig.name.toLower == key) with
  | none =>
    rw [found] at entered
    simp [operator?, hk, entered]
  | some m =>
    rw [found] at entered
    have mem : m ∈ c.methods :=
      List.mem_of_mem_filter (List.mem_reverse.1 (List.mem_of_find?_eq_some found))
    simp [operator?, hk, entered, method?_of_mem mem]

/-- Where no two operator methods are for one key, the table has them all. -/
theorem corresponds (h : c.Tabulated)
    (apart : (c.operatorMethods.map (·.sig.name.toLower)).Nodup) : c.Corresponds := by
  have keys : (c.entries.map Prod.fst).Nodup := by
    rw [entries_eq, List.map_map]
    exact apart
  have keys' : (c.entries.reverse.map Prod.fst).Nodup := by
    rw [List.map_reverse]
    exact List.nodup_reverse.2 keys
  have listed (key name : String) : (key, name) ∈ c.operators ↔ (key, name) ∈ c.entries := by
    rw [← lookup_eq_some_iff_mem h.keys, h.last, lookup_eq_some_iff_mem keys', List.mem_reverse]
  refine ⟨?_, fun m hm => ?_⟩
  · rw [← entries_eq]
    exact (List.perm_ext_iff_of_nodup (.of_map _ h.keys) (.of_map _ keys)).2 fun e => listed e.1 e.2
  · have entered : m.sig.entry ∈ c.entries := by
      rw [entries_eq]
      exact List.mem_map_of_mem hm
    obtain ⟨op, hop⟩ := Operation.exists_key? (h.known _ entered)
    refine ⟨op, hop, ?_⟩
    have found : c.operators.lookup m.sig.name.toLower = some m.sig.name :=
      (lookup_eq_some_iff_mem h.keys).2 ((listed _ _).2 entered)
    simp [operator?, show op.key? = some m.sig.name.toLower from hop, found,
      method?_of_mem (List.mem_of_mem_filter hm)]

theorem corresponds_iff (h : c.Tabulated) :
    c.Corresponds ↔ (c.operatorMethods.map (·.sig.name.toLower)).Nodup := by
  refine ⟨fun one => ?_, h.corresponds⟩
  have keys := (one.entries.map Prod.fst).nodup_iff.1 h.keys
  rwa [List.map_map] at keys

end Tabulated

end Class

/-! The operators of declared classes. -/

namespace Outline

variable {r : Registry} {ns : Nat} {c c' : Class}

theorem tabulated_addFields {fs : List FieldDecl} (h : c.Tabulated)
    (ha : fs.foldlM (addField r ns) c = .ok c') : c'.Tabulated := by
  refine foldlM_invariant (P := fun _ d => d.Tabulated) ha h ?_
  intro _ f _ d d' tabulated hf
  obtain ⟨_, -, -, rfl⟩ := addField_eq_ok hf
  exact tabulated.of_sigs rfl rfl

theorem operatorKey?_eq_some {m : MethodDecl} {key : String} (h : operatorKey? m = some key) :
    key = m.name.toLower := by
  unfold operatorKey? at h
  split at h
  · exact (Option.some.inj h).symm
  · cases h

theorem tabulated_addMethod {m : MethodDecl} {s s' : Class × Array Warning} (h : s.1.Tabulated)
    (ha : addMethod r ns s m = .ok s') : s'.1.Tabulated := by
  obtain ⟨sig, c, signed, operator, added⟩ := addMethod_eq_ok ha
  obtain ⟨-, -, name, -, flag⟩ := signature_eq_ok signed
  obtain ⟨rfl, plain⟩ | ⟨key, hk, known, rfl⟩ := operator
  · obtain ⟨new, he⟩ := Class.addMethod?_iff.1 added
    rw [he]
    exact h.pushMethod new (flag.trans plain)
  · obtain rfl := operatorKey?_eq_some hk
    have flagged : sig.isOperator = true := by rw [flag, hk]; exact known
    rw [← name] at added known
    obtain ⟨new, he⟩ := Class.addMethod?_iff.1 added
    rw [he]
    exact h.pushOperator new flagged (List.contains_iff_mem.1 known)

theorem tabulated_addMethods {ms : List MethodDecl} {s s' : Class × Array Warning}
    (h : s.1.Tabulated) (ha : ms.foldlM (addMethod r ns) s = .ok s') : s'.1.Tabulated :=
  foldlM_invariant (P := fun _ t => t.1.Tabulated) ha h fun _ _ _ _ _ => tabulated_addMethod

theorem tabulated_addInitializer (void : ClassId) {o : Outline} (h : o.cls.Tabulated)
    (isStatic : Bool) : (addInitializer void o isStatic).cls.Tabulated := by
  obtain same | ⟨new, added⟩ := addInitializer_cases void o isStatic
  · rwa [same]
  · rw [added]
    exact h.pushMethod new rfl

theorem tabulated_ofPlaced {void : ClassId} {w w' : Array Warning} {p : Placed} {o : Outline}
    {shell : Class} (hs : r.class? p.id = some shell) (bare : shell.methods = [])
    (unregistered : shell.operators = []) (h : ofPlaced r void w p = .ok (o, w')) :
    o.cls.Tabulated := by
  simp only [ofPlaced, bind_eq_ok, mapError_eq_ok, Prod.exists, Except.ok.injEq, Prod.mk.injEq,
    hs, Option.getD_some] at h
  obtain ⟨c, hc, c', _, hm, rfl, -⟩ := h
  have fields := tabulated_addFields (.bare bare unregistered) hc
  have methods := tabulated_addMethods fields hm
  exact tabulated_addInitializer void (tabulated_addInitializer void
    (o := ⟨p.nspace, p.id, c', p.decl.methods.map .declared⟩) methods false) true

end Outline

namespace Program

variable {options : Options} {items : List Item} {p : Program} {warnings : Array Warning}

theorem Stages.le_of_declared {d : Declared} {place : Placement}
    (h : Stages options items d place p) {id : Nat} {c : Class}
    (hc : p.registry.class? id = some c) (declared : c.isBuiltin = false) : 6 ≤ id := by
  obtain ⟨-, early⟩ | ⟨-, -, -, late, -⟩ := h.finished.class_cases h.ordered hc
  · have builtin := Registry.isBuiltin_base (Array.mem_toList_iff.2 (Array.mem_of_getElem? early))
    exact absurd declared (by simp [builtin])
  · exact late

theorem tabulated {source : List Char} {tokens : List Token}
    (lexed : (Lexed.ofSource source).tokens = .ok tokens)
    (read : Item.ofTokens tokens = .ok items)
    (built : build options items = .ok (p, warnings)) {id : Nat} {c : Class}
    (hc : p.registry.class? id = some c) (declared : c.isBuiltin = false) :
    c.Tabulated := by
  obtain ⟨d, place, stages⟩ := exists_stages lexed read built
  have late := stages.le_of_declared hc declared
  obtain ⟨q, hq, o, ho, ⟨w, w', made⟩, becomes⟩ := stages.class_cases late hc
  obtain ⟨shell, found, -⟩ := stages.agrees.shells q hq
  have number := (Placement.Ordered.start.addAll stages.arises.placed).late hq
  obtain ⟨bare, unregistered⟩ := (Placement.Places.start.addAll
    (Item.isWorded_of_source lexed read) stages.arises.placed).bare _ _ number found
  have outlined := Outline.tabulated_ofPlaced found bare unregistered made
  refine outlined.of_sigs ?_ becomes.sigs
  rw [becomes.eq]

/-- In a program that is accepted, the table of a declared class names operator methods of the class
by their names in lower case, and gives for each operation the one that is declared last. It has all
of them, one for each key, exactly if no two have names that differ only in the case of letters. -/
theorem operators_are_tabulated {source : List Char} {tokens : List Token}
    (lexed : (Lexed.ofSource source).tokens = .ok tokens)
    (read : Item.ofTokens tokens = .ok items)
    (built : build options items = .ok (p, warnings)) {id : Nat} {c : Class}
    (hc : p.registry.class? id = some c) (declared : c.isBuiltin = false) :
    (c.operators.map Prod.fst).Nodup ∧
      (∀ key name, (key, name) ∈ c.operators → ∃ m, c.method? name = some m ∧
        m.sig.isOperator = true ∧ m.sig.name.toLower = key) ∧
      (∀ op key, Operation.key? op = some key →
        c.operator? op = c.operatorMethods.reverse.find? (·.sig.name.toLower == key)) ∧
      (c.Corresponds ↔ (c.operatorMethods.map (·.sig.name.toLower)).Nodup) := by
  have table := tabulated lexed read built hc declared
  refine ⟨table.keys, fun key name listed => ?_, fun _ _ => table.operator?_eq,
    table.corresponds_iff⟩
  have entered := table.mem_operators listed
  rw [Class.entries_eq] at entered
  obtain ⟨m, hm, same⟩ := List.mem_map.1 entered
  obtain ⟨mem, flagged⟩ := List.mem_filter.1 hm
  obtain ⟨rfl, rfl⟩ := Prod.mk.inj same
  exact ⟨m, Class.method?_of_mem mem, flagged, rfl⟩

/-- Operators with letters of both cases, and a method that cannot be one. -/
def abacus : List Char :=
  ("class Bead: def public class Bead opAdd(a: Bead, b: Bead): return b ; " ++
    "def public class i32 OPNOT(a: Bead): return 1 ; def public class void merge(): ; ;").toList

theorem operators_are_tabulated_abacus : ∃ tokens items p warnings id c,
    (Lexed.ofSource abacus).tokens = .ok tokens ∧ Item.ofTokens tokens = .ok items ∧
      build {} items = .ok (p, warnings) ∧ p.registry.class? id = some c ∧ c.isBuiltin = false ∧
      c.operators = [("opnot", "OPNOT"), ("opadd", "opAdd")] ∧ c.Corresponds := by
  have checked : passes abacus (fun _ p => (p.registry.class? 6).any fun c =>
      c.isBuiltin = false ∧ c.operators = [("opnot", "OPNOT"), ("opadd", "opAdd")] ∧
        (c.operatorMethods.map (·.sig.name.toLower)).Nodup) = true := by
    unfold abacus
    simp only [String.toList_append]
    repeat rewrite [String.toList_ofList]
    decide +kernel
  obtain ⟨tokens, items, p, warnings, lexed, read, built, checked⟩ := exists_of_passes checked
  obtain ⟨c, hc, checked⟩ := (Option.any_eq_true _ _).1 checked
  obtain ⟨declared, table, apart⟩ := of_decide_eq_true checked
  obtain ⟨-, -, -, all⟩ := operators_are_tabulated lexed read built hc declared
  exact ⟨tokens, items, p, warnings, 6, c, lexed, read, built, hc, declared, table, all.2 apart⟩

/-- Two methods for `+`, spelled alike up to the case of letters. -/
def spellings : List Char :=
  ("class A: def public class A opAdd(a: A, b: A): return a ; " ++
    "def public class A opadd(a: A, b: A): return b ; ;").toList

theorem operator_replaced_spellings : ∃ tokens items p warnings id c,
    (Lexed.ofSource spellings).tokens = .ok tokens ∧ Item.ofTokens tokens = .ok items ∧
      build {} items = .ok (p, warnings) ∧ p.registry.class? id = some c ∧ c.isBuiltin = false ∧
      c.operatorMethods.map (·.sig.name) = ["opAdd", "opadd"] ∧
      (c.operator? .add).map (·.sig.name) = some "opadd" ∧ ¬ c.Corresponds := by
  have checked : passes spellings (fun _ p => (p.registry.class? 6).any fun c =>
      c.isBuiltin = false ∧ c.operatorMethods.map (·.sig.name) = ["opAdd", "opadd"]) = true := by
    unfold spellings
    simp only [String.toList_append]
    repeat rewrite [String.toList_ofList]
    decide +kernel
  obtain ⟨tokens, items, p, warnings, lexed, read, built, checked⟩ := exists_of_passes checked
  obtain ⟨c, hc, checked⟩ := (Option.any_eq_true _ _).1 checked
  obtain ⟨declared, both⟩ := of_decide_eq_true checked
  have table := tabulated lexed read built hc declared
  have upper : "opAdd".toLower = "opadd" := by decide +kernel
  have lower : "opadd".toLower = "opadd" := by decide +kernel
  refine ⟨tokens, items, p, warnings, 6, c, lexed, read, built, hc, declared, both, ?_, ?_⟩
  · have last : (c.operatorMethods.map (·.sig.name)).reverse.find? (·.toLower == "opadd") =
        some "opadd" := by simp [both, lower]
    rw [← List.map_reverse, List.find?_map] at last
    rw [table.operator?_eq rfl]
    exact last
  · rw [table.corresponds_iff]
    have keys : ¬ ((c.operatorMethods.map (·.sig.name)).map String.toLower).Nodup := by
      simp [both, upper, lower]
    rwa [List.map_map] at keys

end Program
end ClassAsm
