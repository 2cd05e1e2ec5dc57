import ClassAsm.Proofs.Order.Methods

/-! Two orders of the same headings. A heading is what a class declares, without the bodies of its
methods. Two programs that declare the same headings, in any order, have the same declarations up
to the numbers of classes: each class has the same members in both, and each method compiles to the
same. Every declaration and every body gives the same on its own in both orders, so both programs
are accepted or neither is, and the warnings are the same. -/

namespace ClassAsm

open Declaration
def MethodDecl.heading (m : MethodDecl) : MethodDecl := { m with body := .mk [] .nowhere }

def ClassDecl.heading (c : ClassDecl) : ClassDecl := { c with methods := c.methods.map (·.heading) }

def Declaration.heading (d : Declaration) : Declaration := ⟨d.nspace, d.cls.heading⟩

def MethodSource.heading : MethodSource → MethodSource
  | .declared m => .declared m.heading
  | .initializer isStatic => .initializer isStatic

namespace Outline

def heading (o : Outline) : Outline := { o with sources := o.sources.map (·.heading) }

theorem addInitializer_heading (void : ClassId) (o : Outline) (isStatic : Bool) :
    addInitializer void o.heading isStatic = (addInitializer void o isStatic).heading := by
  unfold addInitializer
  rw [show o.heading.cls = o.cls from rfl]
  split
  · cases o.cls.addMethod? (initializerMethod o.cls void isStatic) with
    | none => rfl
    | some c => simp only [heading, List.map_append, List.map_singleton, MethodSource.heading]
  · rfl

theorem ofPlaced_heading (r : Registry) (void : ClassId) (warnings : Array Warning) (p : Placed) :
    ofPlaced r void warnings { p with decl := p.decl.heading } =
      (ofPlaced r void warnings p).map fun s => (s.1.heading, s.2) := by
  have sources : (p.decl.heading.methods.map MethodSource.declared) =
      (p.decl.methods.map MethodSource.declared).map (·.heading) := by
    rw [ClassDecl.heading, List.map_map, List.map_map]
    rfl
  have members (s : Class × Array Warning) :
      p.decl.heading.methods.foldlM (addMethod r p.nspace) s =
        p.decl.methods.foldlM (addMethod r p.nspace) s := by
    rw [ClassDecl.heading, List.foldlM_map]
    rfl
  have initializers (c : Class) (ss : List MethodSource) :
      [false, true].foldl (addInitializer void) ⟨p.nspace, p.id, c, ss.map (·.heading)⟩ =
        ([false, true].foldl (addInitializer void) ⟨p.nspace, p.id, c, ss⟩).heading := by
    have first := addInitializer_heading void ⟨p.nspace, p.id, c, ss⟩ false
    rw [heading] at first
    rw [List.foldl_cons, first, List.foldl_cons, addInitializer_heading]
    rfl
  have started : shell r { p with decl := p.decl.heading } = shell r p := rfl
  rw [ofPlaced_eq, ofPlaced_eq, started]
  simp only [bind_map, members, sources, initializers]
  rfl

end Outline

/-! Members. -/

/-- Where the namespaces of one placement are in another. -/
def Placement.spaceIn (p p' : Placement) (k : Nat) : Nat :=
  p'.registry.spaces.idxOf (p.registry.spaces[k]?.getD "")

theorem Placement.spaceIn_idxOf (p p' : Placement) {space : String}
    (hs : space ∈ p.registry.spaces) :
    p.spaceIn p' (p.registry.spaces.idxOf space) = p'.registry.spaces.idxOf space := by
  rw [spaceIn, List.getElem?_idxOf hs, Option.getD_some]

/-- A declaration has its place and no members yet. -/
structure Declaration.Stands (d : Declaration) (p : Placement) (keys : List (String × String)) :
    Prop where
  space : d.nspace ∈ p.registry.spaces
  known : d.key ∈ keys
  shell : p.registry.class? (6 + keys.idxOf d.key) = some d.shell

theorem Declaration.Stands.heading {d : Declaration} {p : Placement}
    {keys : List (String × String)} (h : d.Stands p keys) : d.heading.Stands p keys :=
  ⟨h.space, h.known, h.shell⟩

theorem Placement.outline_heading (p : Placement) (keys : List (String × String))
    (d : Declaration) : p.outline keys d.heading =
      (p.outline keys d).map fun s => (s.1.heading, s.2) :=
  Outline.ofPlaced_heading p.registry 5 #[] (d.placed p.registry.spaces keys)

namespace Placement.Holds

variable {p p' : Placement} {ds ds' : List Declaration} {ns ns' : String}

theorem stands (h : p.Holds ds ns) (nodup : (ds.map key).Nodup) {d : Declaration} (hd : d ∈ ds) :
    d.Stands p (ds.map key) :=
  ⟨h.known d hd, List.mem_map_of_mem hd, h.class? nodup hd⟩

variable (h : p.Holds ds ns) (h' : p'.Holds ds' ns') (same : (ds.map key).Perm (ds'.map key))
  (nodup : (ds.map key).Nodup) (labels : Nat) (earlier : Array Warning)

include h h'

/-- A class is declared with the same members in both orders. -/
theorem outline_between {d : Declaration} (hd : d.Stands p (ds.map key))
    (hd' : d.Stands p' (ds'.map key)) : p'.outline (ds'.map key) d =
      carry (·.rename ((Exchange.between same nodup).after 0 #[]))
        (fun s => (s.1.rename ((Exchange.between same nodup).after 0 #[]) (p.spaceIn p'), s.2))
        (p.outline (ds.map key) d) := by
  have number : ((Exchange.between same nodup).after 0 #[]).cls (6 + (ds.map key).idxOf d.key) =
      6 + (ds'.map key).idxOf d.key := Exchange.renumber_idxOf hd.known
  have known : p'.registry.class? (((Exchange.between same nodup).after 0 #[]).cls
      (6 + (ds.map key).idxOf d.key)) = (p.registry.class? (6 + (ds.map key).idxOf d.key)).map
        (·.rename ((Exchange.between same nodup).after 0 #[])) := by
    rw [number, hd.shell, hd'.shell, Option.map_some, Class.rename_of_bare rfl rfl]
  have void : ((Exchange.between same nodup).after 0 #[]).cls 5 = 5 :=
    (Exchange.between same nodup).builtin 5 (by decide)
  have moved := Outline.ofPlaced_rename (p.spaceIn p') void (fun name => by
      rw [p.spaceIn_idxOf p' hd.space]
      exact h.resolve?_between h' same nodup 0 #[] hd.space hd'.space name) known #[] d.cls
  rw [Exchange.warnings_after, Array.append_empty, Exchange.decl_after,
    p.spaceIn_idxOf p' hd.space, number] at moved
  simp only [Exchange.warnings_after, Array.empty_append] at moved
  exact moved

end Placement.Holds

/-- The second outline is the first one with other numbers, and perhaps with other bodies. -/
structure Outline.Matches (e : Exchange) (spaceIn : Nat → Nat) (o o' : Outline) : Prop where
  id : o'.id = e.cls o.id
  nspace : o'.nspace = spaceIn o.nspace
  cls : o'.cls = o.cls.rename (e.after 0 #[])
  sources : o'.sources.map (·.heading) = o.sources.map (·.heading)

namespace Program

variable {d d' : Declared}

/-- The registries have the same classes by other numbers if the outlines do. -/
theorem Declared.Ordered.renames_of_outlines (ho : d.Ordered) (ho' : d'.Ordered) {e : Exchange}
    (length : d.outlines.length = d'.outlines.length)
    (stays : ∀ id, 6 + d.outlines.length ≤ id → e.cls id = id)
    (matched : ∀ o ∈ d.outlines, ∃ o' ∈ d'.outlines, o'.id = e.cls o.id ∧
      o'.cls = o.cls.rename (e.after 0 #[])) (labels : Nat) (earlier : Array Warning) :
    d.registry.RenamesTo (e.after labels earlier) d'.registry := by
  intro (id : Nat)
  change (d'.registry.class? (e.cls id)).map _ = _
  by_cases early : id < 6
  · rw [e.builtin id early, ho.declares.base id early, ho'.declares.base id early]
    cases hc : Registry.base.class? id with
    | none => rfl
    | some c =>
      rw [Option.map_some, Option.map_some,
        Class.rename_base (Array.mem_toList_iff.2 (Array.mem_of_getElem? hc))]
  by_cases late : 6 + d.outlines.length ≤ id
  · have beyond {d : Declared} (ho : d.Ordered) (h : 6 + d.outlines.length ≤ id) :
        d.registry.class? id = none := by
      rw [Registry.class?, ← Array.getElem?_toList, ho.classes, List.getElem?_eq_none]
      simpa [Registry.size_base] using h
    rw [stays id late, beyond ho late, beyond ho' (length ▸ late)]
    rfl
  · have lt : id - 6 < d.outlines.length := by omega
    have number : (d.outlines.map (·.id))[id - 6]? = some (6 + (id - 6)) := by
      rw [ho.ids, List.getElem?_range' lt, one_mul]
    rw [List.getElem?_map, List.getElem?_eq_getElem lt, Option.map_some, Option.some.injEq,
      Nat.add_sub_cancel' (not_lt.1 early)] at number
    have here := (ho.class?_id (List.getElem_mem lt)).2
    obtain ⟨o', hm', hid, cls⟩ := matched _ (List.getElem_mem lt)
    have there := (ho'.class?_id hm').2
    rw [hid, number] at there
    rw [number] at here
    rw [there, here, cls]
    exact congrArg some (e.declaration_after _).symm

section

variable {items items' : List Item} {p p' : Placement} {made made' : List (Outline × Array Warning)}
  (a : Arranged items p made) (a' : Arranged items' p' made')
  (same : ((declared items).map key).Perm ((declared items').map key))

include a a'

namespace Arranged

theorem outlines_match {d d' : Declaration} (hd : d ∈ declared items) (hd' : d' ∈ declared items')
    (heading : d'.heading = d.heading) {m m' : Outline × Array Warning}
    (hm : p.outline ((declared items).map key) d = .ok m)
    (hm' : p'.outline ((declared items').map key) d' = .ok m') :
    m.1.Matches (Exchange.between same a.nodup) (p.spaceIn p') m'.1 := by
  obtain ⟨ns, holds⟩ := a.holds
  obtain ⟨ns', holds'⟩ := a'.holds
  have stands := (holds.stands a.nodup hd).heading
  have stands' := (holds'.stands a'.nodup hd').heading
  rw [heading] at stands'
  have moved := holds.outline_between holds' same a.nodup stands stands'
  have first := p.outline_heading ((declared items).map key) d
  have second := p'.outline_heading ((declared items').map key) d'
  rw [hm] at first
  rw [hm'] at second
  rw [← heading, second, heading, first] at moved
  have here := (Prod.mk.inj (Except.ok.inj moved)).1
  simp only [Outline.heading, Outline.rename, Exchange.sources_after, Outline.mk.injEq] at here
  exact ⟨here.2.1, here.1, here.2.2.1, here.2.2.2⟩

theorem renames (headings : ((declared items).map heading).Perm ((declared items').map heading))
    (labels : Nat) (earlier : Array Warning) :
    (Declared.of p made).registry.RenamesTo ((Exchange.between same a.nodup).after labels earlier)
      (Declared.of p' made').registry := by
  have ordered := declare_ordered (declare_eq_ok.2 ⟨p, made, a, rfl⟩)
  have ordered' := declare_ordered (declare_eq_ok.2 ⟨p', made', a', rfl⟩)
  have count {items : List Item} {p : Placement} {made : List (Outline × Array Warning)}
      (a : Arranged items p made) :
      (Declared.of p made).outlines.length = ((declared items).map key).length := by
    rw [Declared.of, List.length_map, List.length_map, a.made.length_eq]
  refine ordered.renames_of_outlines ordered' ?_ ?_ ?_ labels earlier
  · rw [count a, count a', same.length_eq]
  · intro (id : Nat) late
    rw [count a] at late
    exact dif_neg (by omega)
  · intro o ho
    obtain ⟨m, hm, rfl⟩ := List.mem_map.1 ho
    obtain ⟨d, hd, made⟩ := a.exists_declared hm
    obtain ⟨d', hd', heading⟩ := List.mem_map.1 (headings.mem_iff.1 (List.mem_map_of_mem hd))
    obtain ⟨m', hm', made'⟩ := a'.exists_made hd'
    have matched := a.outlines_match a' same hd hd' heading made made'
    exact ⟨m'.1, List.mem_map_of_mem hm', matched.id, matched.cls⟩

/-- Bodies of matching outlines are compiled in corresponding sites. -/
theorem sites (headings : ((declared items).map heading).Perm ((declared items').map heading))
    {o o' : Outline} (ho : o ∈ (Declared.of p made).outlines)
    (matched : o.Matches (Exchange.between same a.nodup) (p.spaceIn p') o') (sig : Signature)
    (options : Options) (labels : Nat) (earlier : Array Warning) :
    Site.RenamesTo ((Exchange.between same a.nodup).after labels earlier)
      ⟨(Declared.of p made).registry, (Declared.of p made).builtins, o.id, o.nspace, sig, options⟩
      ⟨(Declared.of p' made').registry, (Declared.of p' made').builtins, o'.id, o'.nspace,
        sig.rename ((Exchange.between same a.nodup).after labels earlier), options⟩ where
  installed := (declare_ordered (declare_eq_ok.2 ⟨p, made, a, rfl⟩)).installed
  registry := a.renames a' same headings labels earlier
  builtins := rfl
  owner := matched.id
  resolves name := by
    obtain ⟨m, hm, rfl⟩ := List.mem_map.1 ho
    obtain ⟨d, hd, here⟩ := a.exists_declared hm
    obtain ⟨ns, holds⟩ := a.holds
    obtain ⟨ns', holds'⟩ := a'.holds
    obtain ⟨d', hd', heading⟩ := List.mem_map.1 (headings.mem_iff.1 (List.mem_map_of_mem hd))
    have space' : d.nspace ∈ p'.registry.spaces := by
      have space := congrArg Declaration.nspace heading
      exact space ▸ holds'.known d' hd'
    rw [resolve?_of, resolve?_of, matched.nspace, (a.id_nspace hd here).2,
      p.spaceIn_idxOf p' (holds.known d hd)]
    exact holds.resolve?_between holds' same a.nodup labels earlier (holds.known d hd) space' name
  sig := rfl
  options := rfl

end Arranged

end

end Program

/-! What is accepted. -/

/-- The member in a registry where classes have other numbers. -/
noncomputable def Member.across (e : Exchange) (spaceIn : Nat → Nat) (r : Registry)
    (m : Member) : Member :=
  ⟨m.method.rename (e.after 0 #[]),
    ⟨r, m.site.builtins, e.cls m.site.owner, spaceIn m.site.nspace,
      m.site.sig.rename (e.after 0 #[]), m.site.options⟩, m.source⟩

namespace Program

variable {options : Options} {items items' : List Item} {p : Placement}
  {made : List (Outline × Array Warning)} {results : List (Method × Nat × Array Warning)}

theorem keys_of_perm {ds ds' : List Declaration} (h : ds.Perm ds') :
    (ds.map key).Perm (ds'.map key) := h.map key

theorem Arranged.reordered (a : Arranged items p made)
    (perm : (declared items).Perm (declared items')) : ∃ p' made', Arranged items' p' made' ∧
      made'.Perm (made.map fun m => (m.1.rename
        ((Exchange.between (keys_of_perm perm) a.nodup).after 0 #[]) (p.spaceIn p'), m.2)) := by
  obtain ⟨ns, holds⟩ := a.holds
  have nodup' : ((declared items').map key).Nodup := (perm.map key).nodup_iff.1 a.nodup
  obtain ⟨p', ns', placed, holds'⟩ := Placement.Holds.start.addAll items' nodup'
  rw [List.nil_append] at holds'
  have both : List.Forall₂ (fun d m => d ∈ declared items ∧
      p.outline ((declared items).map key) d = .ok m) (declared items) made :=
    (List.forall₂_and_left _ _).2 ⟨fun _ hd => hd, a.made⟩
  obtain ⟨mid, hm, same⟩ := List.perm_comp_forall₂ perm.symm both
  refine ⟨p', mid.map _, ⟨nodup', placed, ⟨ns', holds'⟩, ?_⟩, same.map _⟩
  rw [List.forall₂_map_right_iff]
  refine hm.imp fun d m ⟨hd, outlined⟩ => ?_
  have moved := holds.outline_between holds' (keys_of_perm perm) a.nodup (holds.stands a.nodup hd)
    (holds'.stands nodup' (perm.mem_iff.1 hd))
  rwa [outlined] at moved

theorem Declared.membersOf_rename (d d' : Declared) (same : d'.builtins = d.builtins)
    (e : Exchange) (spaceIn : Nat → Nat) (o : Outline) :
    d'.membersOf options (o.rename (e.after 0 #[]) spaceIn) =
      (d.membersOf options o).map (Member.across e spaceIn d'.registry) := by
  have sources : (o.rename (e.after 0 #[]) spaceIn).sources = o.sources := e.sources_after o.sources
  have methods : (o.rename (e.after 0 #[]) spaceIn).cls.methods =
      o.cls.methods.map (·.rename (e.after 0 #[])) := Class.methods_rename _
  rw [membersOf, membersOf, sources, methods, List.zip_map_left, List.map_map, List.map_map, same]
  rfl

theorem Arranged.alone_across {p' : Placement} {made' : List (Outline × Array Warning)}
    (a : Arranged items p made) (a' : Arranged items' p' made')
    (perm : (declared items).Perm (declared items')) {m : Member}
    (hm : m ∈ (Declared.of p made).members options) :
    (m.across (Exchange.between (keys_of_perm perm) a.nodup) (p.spaceIn p')
        (Declared.of p' made').registry).alone =
      carry (·.rename ((Exchange.between (keys_of_perm perm) a.nodup).after 0 #[]))
        ((Exchange.between (keys_of_perm perm) a.nodup).after 0 #[]).compiled m.alone := by
  obtain ⟨o, ho, hm⟩ := List.mem_flatMap.1 hm
  obtain ⟨⟨method, source⟩, -, rfl⟩ := List.mem_map.1 hm
  have matched : o.Matches (Exchange.between (keys_of_perm perm) a.nodup) (p.spaceIn p')
      (o.rename ((Exchange.between (keys_of_perm perm) a.nodup).after 0 #[]) (p.spaceIn p')) :=
    ⟨rfl, rfl, rfl, congrArg (List.map _) (Exchange.sources_after _ o.sources)⟩
  exact method.compile_after _ (a.sites a' (keys_of_perm perm) (perm.map heading) ho matched
    method.sig options 0 #[]) source

theorem Gives.reordered (g : Gives options items p made results)
    (perm : (declared items).Perm (declared items')) : ∃ p' made' results',
      Gives options items' p' made' results' ∧
        entered (made'.map (·.1)) = entered (made.map (·.1)) ∧
        (reports options made' results').Perm (reports options made results) := by
  obtain ⟨p', made', a', outlines⟩ := g.arranged.reordered perm
  let e := Exchange.between (keys_of_perm perm) g.arranged.nodup
  have across : (((Declared.of p' made').members options)).Perm
      (((Declared.of p made).members options).map
        (Member.across e (p.spaceIn p') (Declared.of p' made').registry)) := by
    have classes := (outlines.map Prod.fst).flatMap_right ((Declared.of p' made').membersOf options)
    refine classes.trans (List.Perm.of_eq ?_)
    have first : ((Declared.of p made).members options).map
        (Member.across e (p.spaceIn p') (Declared.of p' made').registry) =
          made.flatMap fun m => ((Declared.of p made).membersOf options m.1).map
            (Member.across e (p.spaceIn p') (Declared.of p' made').registry) := by
      rw [Declared.members, List.map_flatMap,
        show (Declared.of p made).outlines = made.map (·.1) from rfl, List.flatMap_map]
    rw [first, List.map_map, List.flatMap_map]
    exact congrArg (List.flatMap · made) (funext fun m =>
      Declared.membersOf_rename (.of p made) (.of p' made') rfl e (p.spaceIn p') m.1)
  have both : List.Forall₂ (fun m r => m ∈ (Declared.of p made).members options ∧ m.alone = .ok r)
      ((Declared.of p made).members options) results :=
    (List.forall₂_and_left _ _).2 ⟨fun _ hm => hm, g.compiled⟩
  have moved : List.Forall₂ (fun m r => m.alone = .ok r) (((Declared.of p made).members options).map
      (Member.across e (p.spaceIn p') (Declared.of p' made').registry))
      (results.map (e.after 0 #[]).compiled) := by
    rw [List.forall₂_map_left_iff, List.forall₂_map_right_iff]
    refine both.imp fun m r ⟨hm, alone⟩ => ?_
    rw [g.arranged.alone_across a' perm hm, alone]
    rfl
  obtain ⟨results', compiled, same⟩ := List.perm_comp_forall₂ across moved
  have entries : entered (made'.map (·.1)) = entered (made.map (·.1)) := by
    have main : made'.any (fun m => m.1.sources.any MethodSource.isEntryPoint) =
        made.any fun m => m.1.sources.any MethodSource.isEntryPoint := by
      rw [outlines.any_eq, List.any_map]
      exact congrArg (List.any made) (funext fun m =>
        congrArg (List.any · _) (e.sources_after m.1.sources))
    simpa [entered, List.any_map, Function.comp_def] using main
  have declarations : (made'.flatMap (·.2.toList)).Perm (made.flatMap (·.2.toList)) := by
    have := outlines.flatMap_right (·.2.toList)
    rwa [List.flatMap_map] at this
  have bodies : (results'.flatMap (·.2.2.toList)).Perm (results.flatMap (·.2.2.toList)) := by
    have := same.flatMap_right (·.2.2.toList)
    rw [List.flatMap_map] at this
    simpa [Renaming.compiled, Exchange.warnings_after] using this
  refine ⟨p', made', results', ⟨a', compiled⟩, entries, ?_⟩
  rw [reports, reports, entries]
  exact (declarations.append bodies).append_right _

end Program
end ClassAsm
