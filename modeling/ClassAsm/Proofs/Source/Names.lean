import ClassAsm.Proofs.Source.Words

/-! The names of members. Fields, methods, parameters and variables of a source are named by words,
just as its namespaces and classes are. -/

namespace ClassAsm

mutual

/-- The variables of the statement are named by words. -/
def Stmt.IsWorded : Stmt → Prop
  | .expr _ | .ret .. => True
  | .declare name .. | .assign name .. => IsWord name
  | .loop _ (.mk body _) _ => Stmt.AreWorded body
  | .cond (.mk _ (.mk body _) _) rest none _ => Stmt.AreWorded body ∧ Arm.AreWorded rest
  | .cond (.mk _ (.mk body _) _) rest (some (.mk otherwise _)) _ =>
    Stmt.AreWorded body ∧ Arm.AreWorded rest ∧ Stmt.AreWorded otherwise

def Stmt.AreWorded : List Stmt → Prop
  | [] => True
  | s :: rest => s.IsWorded ∧ Stmt.AreWorded rest

def Arm.AreWorded : List Arm → Prop
  | [] => True
  | .mk _ (.mk body _) _ :: rest => Stmt.AreWorded body ∧ Arm.AreWorded rest

end

theorem Stmt.areWorded_append {ss ss' : List Stmt} :
    Stmt.AreWorded (ss ++ ss') ↔ Stmt.AreWorded ss ∧ Stmt.AreWorded ss' := by
  induction ss with
  | nil => simp [Stmt.AreWorded]
  | cons s ss ih => simp [Stmt.AreWorded, ih, and_assoc]

theorem Arm.areWorded_iff {as : List Arm} :
    Arm.AreWorded as ↔ ∀ a ∈ as, Stmt.AreWorded a.body.stmts := by
  induction as with
  | nil => simp [Arm.AreWorded]
  | cons a as ih =>
    obtain ⟨_, ⟨_, _⟩, _⟩ := a
    rw [Arm.AreWorded, ih, List.forall_mem_cons]
    rfl

/-- The blocks of a condition, the last of which may be missing. -/
theorem Stmt.isWorded_cond {first : Arm} {rest : List Arm} {otherwise : Option Block} {span : Span} :
    (Stmt.cond first rest otherwise span).IsWorded ↔ Stmt.AreWorded first.body.stmts ∧
      Arm.AreWorded rest ∧ ∀ b ∈ otherwise, Stmt.AreWorded b.stmts := by
  obtain ⟨_, ⟨_, _⟩, _⟩ := first
  rcases otherwise with _ | ⟨_, _⟩
  · simp [IsWorded, Arm.body, Block.stmts]
  · simp [IsWorded, Arm.body, Block.stmts]

structure MethodDecl.IsWorded (m : MethodDecl) : Prop where
  name : IsWord m.name
  params : ∀ p ∈ m.params, IsWord p.name
  body : Stmt.AreWorded m.body.stmts

structure ClassDecl.IsWorded (c : ClassDecl) : Prop where
  fields : ∀ f ∈ c.fields, IsWord f.name
  methods : ∀ m ∈ c.methods, m.IsWorded

namespace Grammar

variable {ks ks' : List Kind}

theorem Worded.of_subset (h : Worded ks) (sub : ks' ⊆ ks) : Worded ks' :=
  fun name hm => h name (sub hm)

mutual

theorem SpellsStmt.isWorded {tail : Tail} {s : Stmt} {ks : List Kind} :
    SpellsStmt tail s ks → Worded ks → s.IsWorded
  | .expr _, _ => trivial
  | .declare, hw => hw _ (by simp)
  | .assign _, hw => hw _ (by simp)
  | .define _, hw => hw _ (by simp)
  | .bareReturn, _ => trivial
  | .ret _, _ => trivial
  | .loop _ body, hw => body.areWorded (hw.of_subset fun _ hk => by simp [hk])
  | .cond arms, hw =>
    let both := arms.areWorded hw
    Stmt.isWorded_cond.2 ⟨both.1, both.2, nofun⟩
  | .condElse arms body, hw =>
    let both := arms.areWorded (hw.of_subset fun _ hk => by simp [hk])
    let last := body.areWorded (hw.of_subset fun _ hk => by simp [hk])
    Stmt.isWorded_cond.2 ⟨both.1, both.2, fun _ hb => Option.some.inj hb ▸ last⟩

theorem SpellsStmts.areWorded {tail : Tail} {ss : List Stmt} {ks : List Kind} :
    SpellsStmts tail ss ks → Worded ks → Stmt.AreWorded ss
  | .nil, _ => trivial
  | .snoc h h' _, hw =>
    Stmt.areWorded_append.2 ⟨h.areWorded hw.left, h'.isWorded hw.right, trivial⟩

theorem SpellsArms.areWorded {first : Arm} {rest : List Arm} {ks : List Kind} :
    SpellsArms first rest ks → Worded ks → Stmt.AreWorded first.body.stmts ∧ Arm.AreWorded rest
  | .first _ body, hw => ⟨body.areWorded (hw.of_subset fun _ hk => by simp [hk]), trivial⟩
  | .snoc arms _ body, hw =>
    let before := arms.areWorded (hw.of_subset fun _ hk => by simp [hk])
    ⟨before.1, Arm.areWorded_iff.2 fun a ha => by
      rcases List.mem_append.1 ha with ha | ha
      · exact Arm.areWorded_iff.1 before.2 a ha
      · rw [List.mem_singleton.1 ha]
        exact body.areWorded (hw.of_subset fun _ hk => by simp [hk])⟩

end

theorem SpellsParams.isWord {ps : List Param} (h : SpellsParams ps ks) (hw : Worded ks) :
    ∀ p ∈ ps, IsWord p.name := by
  cases h with
  | absent | empty => exact nofun
  | @some ps p =>
    intro q hq
    apply hw
    rcases List.mem_append.1 hq with hq | hq
    · have listed : .ident q.name ∈ eachParam ps :=
        List.mem_flatMap.2 ⟨q, hq, by simp [paramKinds]⟩
      simp [listed]
    · rw [List.mem_singleton.1 hq]
      simp [paramKinds]

theorem SpellsMethod.isWorded {m : MethodDecl} (h : SpellsMethod m ks) (hw : Worded ks) :
    m.IsWorded := by
  refine ⟨h.isWord hw, ?_, ?_⟩
  · cases h with
    | mk params => exact params.isWord (hw.of_subset fun _ hk => by simp [hk])
  · cases h with
    | mk _ body => exact body.areWorded (hw.of_subset fun _ hk => by simp [hk])

theorem SpellsField.isWord {f : FieldDecl} (h : SpellsField f ks) (hw : Worded ks) :
    IsWord f.name := by
  cases h with
  | plain | withDefault => exact hw _ (by simp)

theorem SpellsMembers.isWorded {fs : List FieldDecl} {ms : List MethodDecl}
    (h : SpellsMembers fs ms ks) (hw : Worded ks) :
    (∀ f ∈ fs, IsWord f.name) ∧ ∀ m ∈ ms, m.IsWorded := by
  induction h with
  | nil => exact ⟨nofun, nofun⟩
  | field _ h' ih =>
    obtain ⟨fields, methods⟩ := ih hw.left
    refine ⟨fun f hf => ?_, methods⟩
    rcases List.mem_append.1 hf with hf | hf
    · exact fields f hf
    · rw [List.mem_singleton.1 hf]
      exact h'.isWord hw.right
  | method _ h' ih =>
    obtain ⟨fields, methods⟩ := ih hw.left
    refine ⟨fields, fun m hm => ?_⟩
    rcases List.mem_append.1 hm with hm | hm
    · exact methods m hm
    · rw [List.mem_singleton.1 hm]
      exact h'.isWorded hw.right

theorem SpellsItems.classWorded {items : List Item} (h : SpellsItems items ks) (hw : Worded ks) :
    ∀ c, .cls c ∈ items → c.IsWorded := by
  induction h with
  | nil => exact nofun
  | snoc _ h' ih =>
    intro c hc
    rcases List.mem_append.1 hc with hc | hc
    · exact ih hw.left c hc
    · rw [← List.mem_singleton.1 hc] at h'
      cases h' with
      | cls _ members =>
        obtain ⟨fields, methods⟩ := members.isWorded
          (hw.right.of_subset fun _ hk => by simp [hk])
        exact ⟨fields, methods⟩

end Grammar

/-- The members of the classes of a source are named by words. -/
theorem Item.classWorded_of_source {source : List Char} {tokens : List Token} {items : List Item}
    (h : (Lexed.ofSource source).tokens = .ok tokens) (h' : Item.ofTokens tokens = .ok items) :
    ∀ c, .cls c ∈ items → c.IsWorded := by
  obtain ⟨_, spelled, worded⟩ := Item.spells_of_source h h'
  exact spelled.classWorded worded

end ClassAsm
