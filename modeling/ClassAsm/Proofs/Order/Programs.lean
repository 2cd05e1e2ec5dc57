import ClassAsm.Proofs.Layout.Sources
import ClassAsm.Proofs.Order.Bodies
import ClassAsm.Proofs.Order.Reordered
import ClassAsm.Proofs.Program.References

/-! Programs whose classes stand in other orders. What a body compiles to depends on the headings of
all classes, and not on their order or on other bodies. Where only the order differs, the whole
program is accepted in both orders or in neither, and the same is said about it. -/

namespace ClassAsm

open Declaration

theorem Registry.Agrees.localLines {r r' : Registry} (h : Agrees r r')
    (l : List (String × TypeRef)) : Assembly.localLines r' l = Assembly.localLines r l := by
  have types : r'.plainType = r.plainType := funext h.plainType
  rw [Assembly.localLines, Assembly.localLines, types]

theorem keys_of_headings {ds ds' : List Declaration}
    (h : (ds.map heading).Perm (ds'.map heading)) : (ds.map key).Perm (ds'.map key) := by
  have := h.map key
  rwa [List.map_map, List.map_map] at this

namespace Program

variable {options : Options} {items items' : List Item} {p p' : Program} {ws ws' : Array Warning}

/-- A class of an accepted program is the one of its outline, compiled. -/
structure Houses (options : Options) (items : List Item) (p : Program) (place : Placement)
    (made : List (Outline × Array Warning)) : Prop where
  arranged : Arranged items place made
  finished : Finished options (Declared.of place made) p

theorem build_houses (h : build options items = .ok (p, ws)) :
    ∃ place made, Houses options items p place made := by
  obtain ⟨d, hd, finished⟩ := build_finished h
  obtain ⟨place, made, arranged, rfl⟩ := declare_eq_ok.1 hd
  exact ⟨place, made, arranged, finished⟩

namespace Houses

variable {place : Placement} {made : List (Outline × Array Warning)}
  (h : Houses options items p place made)

include h

theorem ordered : (Declared.of place made).Ordered :=
  declare_ordered (declare_eq_ok.2 ⟨place, made, h.arranged, rfl⟩)

theorem method?_eq {d : Declaration} (hd : d ∈ declared items) {m : Outline × Array Warning}
    (hm : m ∈ made) (outlined : place.outline ((declared items).map key) d = .ok m) :
    ∃ c, (Declared.of place made).Becomes options m.1 c ∧
      ∀ name, p.registry.method? d.nspace d.cls.name name = c.method? name := by
  obtain ⟨c, hc, becomes⟩ := h.finished.class?_id h.ordered (List.mem_map_of_mem hm)
  refine ⟨c, becomes, fun name => ?_⟩
  obtain ⟨ns, holds⟩ := h.arranged.holds
  have spaces : p.registry.namespaces = place.registry.namespaces :=
    h.finished.namespaces.trans (names_of place made).2
  obtain ⟨n, hn, name'⟩ := List.mem_map.1 (holds.known d hd)
  have exists_space : (place.registry.namespaces.find? (·.name == d.nspace)).isSome :=
    List.find?_isSome.2 ⟨n, hn, beq_iff_eq.2 name'⟩
  obtain ⟨n', found⟩ := Option.isSome_iff_exists.1 exists_space
  have same : n'.name = d.nspace := by simpa using List.find?_some found
  have number : n'.lookup d.cls.name = some m.1.id := by
    have known : (d.nspace, d.cls.name) ∈ (declared items).map key := List.mem_map_of_mem hd
    rw [holds.lookup n' (List.mem_of_find?_eq_some found), same, Declaration.number?,
      if_pos known, (h.arranged.id_nspace hd outlined).1]
    rfl
  rw [Registry.method?, spaces, found]
  simp only [Option.bind_eq_bind, Option.bind_some, number, hc]

end Houses

theorem Arranged.names {place : Placement} {made : List (Outline × Array Warning)}
    (a : Arranged items place made) {d : Declaration} (hd : d ∈ declared items)
    {m : Outline × Array Warning} (hm : place.outline ((declared items).map key) d = .ok m) :
    List.Forall₂ (fun m source => m.sig.name = source.name) m.1.cls.methods m.1.sources := by
  obtain ⟨ns, holds⟩ := a.holds
  refine Outline.names_ofPlaced (shells holds a.nodup _ ?_) hm
  rw [holds.placed]
  exact List.mem_map_of_mem hd

theorem exists_method (h : build options items = .ok (p, ws)) {d : Declaration}
    (hd : d ∈ declared items) {name : String} {b : Block} (body : d.cls.body? name = some b) :
    ∃ m, p.registry.method? d.nspace d.cls.name name = some m := by
  obtain ⟨place, made, houses⟩ := build_houses h
  obtain ⟨m, hm, outlined⟩ := houses.arranged.exists_made hd
  obtain ⟨c, becomes, found⟩ := houses.method?_eq hd hm outlined
  have names := houses.arranged.names hd outlined
  obtain ⟨decl, hdecl, -⟩ := Option.map_eq_some_iff.1 body
  obtain ⟨kinds, sources⟩ := Outline.sources_ofPlaced outlined
  have source : m.1.sources.find? (·.name == name) = some (.declared decl) := by
    rw [sources, List.find?_append, List.find?_map]
    exact congrArg (Option.or · _) (congrArg (Option.map _) hdecl)
  rw [found]
  have here := becomes.find? names name
  have part := find?_parts names.length_eq name
  obtain ⟨x, hx, -⟩ := Option.map_eq_some_iff.1 (part.trans source)
  rw [hx] at here
  generalize c.method? name = f at here
  cases here with
  | some => exact ⟨_, rfl⟩

/-- The same body gives the same code in two programs with the same headings. -/
theorem sameCode_of_headings (h : build options items = .ok (p, ws))
    (h' : build options items' = .ok (p', ws'))
    (headings : ((declared items).map heading).Perm ((declared items').map heading))
    {d d' : Declaration} (hd : d ∈ declared items) (hd' : d' ∈ declared items')
    (keys : d'.key = d.key) {name : String} (body : d'.cls.body? name = d.cls.body? name) :
    Option.Rel (Method.SameCode p.registry p'.registry)
      (p.registry.method? d.nspace d.cls.name name)
      (p'.registry.method? d'.nspace d'.cls.name name) := by
  obtain ⟨place, made, first⟩ := build_houses h
  obtain ⟨place', made', second⟩ := build_houses h'
  have a := first.arranged
  have a' := second.arranged
  have same := keys_of_headings headings
  -- the class has the same heading in both programs
  have heading : d'.heading = d.heading := by
    obtain ⟨e, he, heading⟩ := List.mem_map.1 (headings.mem_iff.1 (List.mem_map_of_mem hd))
    have key : e.key = d'.key := (congrArg key heading).trans keys.symm
    obtain rfl := List.inj_on_of_nodup_map a'.nodup he hd' key
    exact heading
  obtain ⟨m, hm, outlined⟩ := a.exists_made hd
  obtain ⟨m', hm', outlined'⟩ := a'.exists_made hd'
  have matched := a.outlines_match a' same hd hd' heading outlined outlined'
  obtain ⟨c, becomes, found⟩ := first.method?_eq hd hm outlined
  obtain ⟨c', becomes', found'⟩ := second.method?_eq hd' hm' outlined'
  rw [found, found']
  have names := a.names hd outlined
  have names' := a'.names hd' outlined'
  have here := becomes.find? names name
  have there := becomes'.find? names' name
  have both : Option.Rel _ ((parts m.1).find? (·.2.name == name))
      ((parts m'.1).find? (·.2.name == name)) :=
    Forall₂.find? (parts_match matched) fun {x x'} hx => by
      rw [← x.2.name_heading, ← x'.2.name_heading, hx.2]
  have source := find?_parts names.length_eq name
  have source' := find?_parts names'.length_eq name
  generalize hx : (parts m.1).find? (·.2.name == name) = x,
    hx' : (parts m'.1).find? (·.2.name == name) = x' at here there both source source'
  generalize c.method? name = f, c'.method? name = f' at here there
  cases both with
  | none =>
    cases here
    cases there
    exact .none
  | @some x x' match' =>
    obtain ⟨method, heading⟩ := match'
    have source_eq : x'.2 = x.2 := MethodSource.eq_of_heading heading fun s s' hs hs' => by
      rw [Option.map_some, hs] at source
      rw [Option.map_some, hs'] at source'
      have declared := Outline.body?_of_find? outlined source.symm
      have declared' := Outline.body?_of_find? outlined' source'.symm
      exact Option.some.inj (declared'.symm.trans (body.trans declared))
    cases here with
    | some hf =>
      cases there with
      | some hf' =>
        obtain ⟨part, _, _, _, _, compiled⟩ := hf
        obtain ⟨-, _, _, _, _, compiled'⟩ := hf'
        have outline := List.mem_map_of_mem (f := Prod.fst) hm
        have pending (ss : List Segment) : x.1.body ≠ .segments ss := by
          rw [(first.ordered.linked m.1 outline).pending (List.of_mem_zip part).1]
          exact nofun
        rw [source_eq, method] at compiled'
        have code := sameCode_of_compile pending
          (first.ordered.site_same m.1.id m.1.nspace x.1.sig options)
          (a.sites a' same headings outline matched x.1.sig options) compiled compiled'
        refine .some ⟨?_, code.maxStack, code.segments⟩
        rw [first.finished.agrees.localLines, second.finished.agrees.localLines]
        exact code.locals

end Program

/-! Up to spans. -/

def Declaration.bare (d : Declaration) : Declaration := ⟨d.nspace, d.cls.bare⟩

theorem Item.declarations_bare (ns : String) (items : List Item) :
    declarations ns (items.map Item.bare) = (declarations ns items).map Declaration.bare := by
  induction items generalizing ns with
  | nil => rfl
  | cons i items ih =>
    cases i with
    | nspace name => exact ih name
    | cls c => exact congrArg (⟨ns, c.bare⟩ :: ·) (ih ns)

theorem ClassDecl.body?_bare (c : ClassDecl) (name : String) :
    c.bare.body? name = (c.body? name).map Block.bare := by
  rw [body?, body?, bare, List.find?_map, Option.map_map, Option.map_map]
  rfl

theorem Registry.method?_bare (r : Registry) (ns cls name : String) :
    r.bare.method? ns cls name = (r.method? ns cls name).map (·.rename .bare) := by
  rw [method?, method?, show r.bare.namespaces = r.namespaces from rfl]
  cases r.namespaces.find? (·.name == ns) with
  | none => rfl
  | some n =>
    simp only [Option.bind_eq_bind, Option.bind_some]
    cases n.lookup cls with
    | none => rfl
    | some id =>
      rw [Option.bind_some, Option.bind_some, r.class?_bare id]
      cases r.class? id with
      | none => rfl
      | some c => exact c.method?_rename name

theorem Method.SameCode.of_bare {r r' : Registry} {m m' : Method}
    (h : SameCode r.bare r'.bare (m.rename .bare) (m'.rename .bare)) : SameCode r r' m m' := by
  have body (m : Method) : (m.rename .bare).body = m.body := by
    rw [Method.rename]
    cases m.body with
    | segments ss => simp only [MethodBody.rename, Segment.rename_bare, List.map_id']
    | pending | inline => rfl
  have locals (r : Registry) (m : Method) :
      Assembly.localLines r.bare (m.rename .bare).locals = Assembly.localLines r m.locals :=
    r.renames_bare.localLines m.locals
  obtain ⟨lines, stack, segments⟩ := h
  rw [locals, locals] at lines
  rw [body, body] at segments
  exact ⟨lines, stack, segments⟩

theorem Method.SameCode.of_bare_option {r r' : Registry} {m m' : Option Method}
    (h : Option.Rel (SameCode r.bare r'.bare) (m.map (·.rename .bare)) (m'.map (·.rename .bare))) :
    Option.Rel (SameCode r r') m m' := by
  cases m <;> cases m' <;> cases h
  · exact .none
  case some same => exact .some same.of_bare

namespace Program

variable {options : Options} {items items' : List Item} {p p' : Program} {ws ws' : Array Warning}

theorem build_of_perm (h : build options items = .ok (p, ws))
    (perm : (declared items).Perm (declared items')) : ∃ p' ws',
      build options items' = .ok (p', ws') ∧ p'.hasMain = p.hasMain ∧ ws'.toList.Perm ws.toList := by
  obtain ⟨place, made, results, given, main, warned⟩ := build_gives h
  obtain ⟨place', made', results', given', entries, said⟩ := given.reordered perm
  obtain ⟨p', ws', h', main', warned'⟩ := given'.build
  exact ⟨p', ws', h', main'.trans (entries.trans main.symm), warned ▸ warned' ▸ said⟩

/-- What a body compiles to depends on the headings of the classes, and on nothing else but for the
numbers of labels. In another order of the classes the same is accepted and the same is said. -/
theorem bodies_are_independent (options : Options) (items items' : List Item) :
    (((declared items).map fun d => d.bare.heading).Perm
        ((declared items').map fun d => d.bare.heading) →
      ∀ p ws p' ws', build options items = .ok (p, ws) → build options items' = .ok (p', ws') →
        ∀ d ∈ declared items, ∀ d' ∈ declared items', d'.key = d.key →
          ∀ name, (d'.cls.body? name).map Block.bare = (d.cls.body? name).map Block.bare →
            ((d.cls.body? name).isSome →
              (p.registry.method? d.nspace d.cls.name name).isSome) ∧
            Option.Rel (Method.SameCode p.registry p'.registry)
              (p.registry.method? d.nspace d.cls.name name)
              (p'.registry.method? d'.nspace d'.cls.name name)) ∧
    ((declared items).Perm (declared items') →
      match build options items, build options items' with
      | .ok (p, ws), .ok (p', ws') => p'.hasMain = p.hasMain ∧ ws'.toList.Perm ws.toList
      | .error _, .error _ => True
      | _, _ => False) := by
  constructor
  · intro headings p ws p' ws' h h' d hd d' hd' keys name body
    constructor
    · intro declares
      obtain ⟨b, hb⟩ := Option.isSome_iff_exists.1 declares
      obtain ⟨m, hm⟩ := exists_method h hd hb
      exact Option.isSome_iff_exists.2 ⟨m, hm⟩
    -- without spans the headings and the body are the same, and not only the same to a reader
    have bare (items : List Item) :
        declared (items.map Item.bare) = (declared items).map Declaration.bare :=
      Item.declarations_bare Registry.defaultNamespace items
    have built {items : List Item} {p : Program} {ws : Array Warning}
        (h : build options items = .ok (p, ws)) :
        build options (items.map Item.bare) = .ok (p.bare, bareWarnings ws) := by
      rw [build_bare, h]
      rfl
    have bodies : (d'.bare.cls.body? name) = d.bare.cls.body? name := by
      rw [Declaration.bare, Declaration.bare, ClassDecl.body?_bare, ClassDecl.body?_bare, body]
    have perm : ((declared (items.map Item.bare)).map heading).Perm
        ((declared (items'.map Item.bare)).map heading) := by
      rw [bare, bare, List.map_map, List.map_map]
      exact headings
    have known {items : List Item} {d : Declaration} (hd : d ∈ declared items) :
        d.bare ∈ declared (items.map Item.bare) := bare items ▸ List.mem_map_of_mem hd
    have same := sameCode_of_headings (built h) (built h') perm (known hd) (known hd') keys bodies
    rw [show p.bare.registry = p.registry.bare from rfl,
      show p'.bare.registry = p'.registry.bare from rfl, Registry.method?_bare,
      Registry.method?_bare] at same
    exact Method.SameCode.of_bare_option same
  · intro perm
    cases h : build options items with
    | ok built =>
      obtain ⟨p', ws', h', main, warned⟩ := build_of_perm h perm
      rw [h']
      exact ⟨main, warned⟩
    | error s =>
      cases h' : build options items' with
      | error s' => trivial
      | ok built =>
        obtain ⟨p, ws, accepted, -⟩ := build_of_perm h' perm.symm
        rw [h] at accepted
        cases accepted

/-- A class with one method, `def public i32 speed(n: i32)`, whose body is left open. -/
def pump (body : List Stmt) : ClassDecl :=
  let s : Span := ⟨0, 0⟩
  ⟨"Pump", s, true, [],
    [⟨"speed", s, "i32", s, [⟨"n", "i32", s⟩], .mk body s, true, .plain, s⟩], s⟩

/-- A class that names the other one in the heading of its method:
```
class Valve:
  def public i32 turn(n: i32, pump: Pump):
    while n > 0: n = n - 1 ;
    n
    return n ;
;
``` -/
def valve : ClassDecl :=
  let s : Span := ⟨0, 0⟩
  let n : Expr := .ident "n" s
  let body : List Stmt :=
    [.loop (.binary .gt n (.int 0 s) s)
      (.mk [.assign "n" s none (.binary .sub n (.int 1 s) s) s] s) s, .expr n, .ret (some n) s]
  ⟨"Valve", s, true, [],
    [⟨"turn", s, "i32", s, [⟨"n", "i32", s⟩, ⟨"pump", "Pump", s⟩], .mk body s, true, .plain, s⟩], s⟩

/-- A pump that gives back what it gets, and one that counts down with a loop before. -/
def steady : List Stmt := [.ret (some (.ident "n" ⟨0, 0⟩)) ⟨0, 0⟩]

def slowing : List Stmt :=
  let s : Span := ⟨0, 0⟩
  let n : Expr := .ident "n" s
  [.loop (.binary .gt n (.int 7 s) s)
    (.mk [.assign "n" s none (.binary .sub n (.int 1 s) s) s] s) s, .ret (some n) s]

theorem bodies_are_independent_valve : ∃ p ws p' ws' m m',
    build {} [.cls (pump slowing), .cls valve] = .ok (p, ws) ∧
      build {} [.cls valve, .cls (pump steady)] = .ok (p', ws') ∧
      p.registry.method? "Program" "Valve" "turn" = some m ∧
      p'.registry.method? "Program" "Valve" "turn" = some m' ∧
      m.SameCode p.registry p'.registry m' ∧
      ∃ p'' ws'', build {} [.cls valve, .cls (pump slowing)] = .ok (p'', ws'') ∧
        p''.hasMain = p.hasMain ∧ ws''.toList.Perm ws.toList := by
  obtain ⟨⟨p, ws⟩, h⟩ :=
    exists_eq_ok (x := build {} [.cls (pump slowing), .cls valve]) (by decide +kernel)
  obtain ⟨⟨p', ws'⟩, h'⟩ :=
    exists_eq_ok (x := build {} [.cls valve, .cls (pump steady)]) (by decide +kernel)
  obtain ⟨⟨p'', ws''⟩, h''⟩ :=
    exists_eq_ok (x := build {} [.cls valve, .cls (pump slowing)]) (by decide +kernel)
  have declares : (valve.body? "turn").isSome := by decide
  obtain ⟨found, same⟩ := (bodies_are_independent {} [.cls (pump slowing), .cls valve]
    [.cls valve, .cls (pump steady)]).1 (List.Perm.swap ..) p ws p' ws' h h'
    ⟨"Program", valve⟩ (.tail _ (.head _)) ⟨"Program", valve⟩ (.head _) rfl "turn" rfl
  obtain ⟨m, hm⟩ := Option.isSome_iff_exists.1 (found declares)
  rw [hm] at same
  generalize hm' : p'.registry.method? _ _ _ = f at same
  cases same with
  | some same =>
    -- the two results stand in the statement before anything asks what they are
    have ⟨_, moved⟩ := bodies_are_independent {} [.cls (pump slowing), .cls valve]
      [.cls valve, .cls (pump slowing)]
    rw [h, h''] at moved
    exact ⟨p, ws, p', ws', m, _, h, h', hm, hm', same, p'', ws'', h'', moved (List.Perm.swap ..)⟩

end Program
end ClassAsm
