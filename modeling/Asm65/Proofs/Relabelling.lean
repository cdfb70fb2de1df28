import Asm65.Proofs.Reprinting

/-!
# Other names and numbers

The assembler compares the names of labels with each other and passes on the numbers of
lines, and does nothing else with either of them.  So if statements get other names for their
labels, different ones for different labels, and other numbers for their lines, then the same
bytes are written, the same addresses are found under the new names, and a failure is the
same failure with the new names and numbers.
-/

namespace Asm65

/-!
# Outcomes that correspond
-/

/-- Both outcomes are results, the second the image of the first, or both are failures. -/
inductive Mirrors {ε ε' α α' : Type} (E : ε -> ε' -> Prop) (f : α -> α') :
    Except ε α -> Except ε' α' -> Prop where
  | ok (a : α) : Mirrors E f (.ok a) (.ok (f a))
  | error {e : ε} {e' : ε'} (h : E e e') : Mirrors E f (.error e) (.error e')

namespace Mirrors

variable {ε ε' δ δ' α α' β β' γ γ' : Type} {E : ε -> ε' -> Prop} {f : α -> α'} {g : β -> β'}
  {x : Except ε α} {x' : Except ε' α'}

theorem bind {k : α -> Except ε β} {k' : α' -> Except ε' β'} (hx : Mirrors E f x x')
    (hk : forall a, Mirrors E g (k a) (k' (f a))) : Mirrors E g (x >>= k) (x' >>= k') := by
  cases hx with
  | ok a => exact hk a
  | error h => exact .error h

theorem map {k : α -> β} {k' : α' -> β'} (hx : Mirrors E f x x')
    (hk : forall a, k' (f a) = g (k a)) : Mirrors E g (x.map k) (x'.map k') := by
  cases hx with
  | ok a =>
      show Mirrors E g (.ok (k a)) (.ok (k' (f a)))
      rw [hk]
      exact .ok (k a)
  | error h => exact .error h

theorem mapError {D : δ -> δ' -> Prop} {k : ε -> δ} {k' : ε' -> δ'} (hx : Mirrors E f x x')
    (hk : forall e e', E e e' -> D (k e) (k' e')) :
    Mirrors D f (x.mapError k) (x'.mapError k') := by
  cases hx with
  | ok a => exact .ok a
  | error h => exact .error (hk _ _ h)

theorem foldlM {k : α -> γ -> Except ε α} {k' : α' -> γ' -> Except ε' α'}
    {R : γ -> γ' -> Prop} {cs : List γ} {cs' : List γ'} (hcs : List.Forall₂ R cs cs')
    (hk : forall a c c', R c c' -> Mirrors E f (k a c) (k' (f a) c')) (a : α) :
    Mirrors E f (cs.foldlM k a) (cs'.foldlM k' (f a)) := by
  induction hcs generalizing a with
  | nil => exact .ok a
  | cons hc _ ih => exact (hk a _ _ hc).bind ih

theorem mapM {k : γ -> Except ε α} {k' : γ' -> Except ε' α'} {R : γ -> γ' -> Prop}
    {cs : List γ} {cs' : List γ'} (hcs : List.Forall₂ R cs cs')
    (hk : forall c c', R c c' -> Mirrors E f (k c) (k' c')) :
    Mirrors E (List.map f) (cs.mapM k) (cs'.mapM k') := by
  induction hcs with
  | nil => exact .ok []
  | cons hc _ ih =>
      rw [List.mapM_cons, List.mapM_cons]
      exact (hk _ _ hc).bind fun a => ih.bind fun as => .ok (a :: as)

theorem eq_of_graph {k : ε -> ε'} (hx : Mirrors (fun e e' => e' = k e) f x x') :
    x' = (x.map f).mapError k := by
  cases hx with
  | ok a => rfl
  | error h =>
      cases h
      rfl

theorem exists_ok_iff (hx : Mirrors E f x x') :
    (exists a', x' = .ok a') <-> exists a, x = .ok a := by
  cases hx with
  | ok a => exact iff_of_true ⟨_, rfl⟩ ⟨a, rfl⟩
  | error h => exact iff_of_false (fun ⟨_, hok⟩ => nomatch hok) (fun ⟨_, hok⟩ => nomatch hok)

theorem eq_of_ok {a : α} {a' : α'} (hx : Mirrors E f x x') (h : x = .ok a) (h' : x' = .ok a') :
    a' = f a := by
  cases hx with
  | ok b =>
      cases h
      cases h'
      rfl
  | error _ => cases h

theorem of_error {e : ε} {e' : ε'} (hx : Mirrors E f x x') (h : x = .error e)
    (h' : x' = .error e') : E e e' := by
  cases hx with
  | ok b => cases h
  | error herror =>
      cases h
      cases h'
      exact herror

end Mirrors

/-!
# Relabelled statements
-/

/-- New names for labels, each of them only once, and new numbers for lines. -/
structure Relabelling where
  name : String -> String
  line : Nat -> Nat
  injective : Function.Injective name

namespace Relabelling

/-- New numbers for lines under the old names. -/
def ofLine (line : Nat -> Nat) : Relabelling :=
  ⟨id, line, Function.injective_id⟩

end Relabelling

variable (r : Relabelling)

def LabelRef.relabel (l : LabelRef) : LabelRef :=
  ⟨r.name l.name, l.token⟩

def Operand.relabel : Operand -> Operand
  | .absolute (.label l) => .absolute (.label (l.relabel r))
  | .relative (.label l) => .relative (.label (l.relabel r))
  | .indirect (.label l) => .indirect (.label (l.relabel r))
  | operand => operand

def Payload.relabel : Payload -> Payload
  | .literal bytes => .literal bytes
  | .reference kind l => .reference kind (l.relabel r)

theorem Operand.mode_relabel (operand : Operand) : (operand.relabel r).mode = operand.mode := by
  unfold relabel
  split <;> rfl

theorem Operand.payload_relabel (operand : Operand) :
    (operand.relabel r).payload = operand.payload.relabel r := by
  cases operand with
  | absolute t => cases t <;> rfl
  | relative b => cases b <;> rfl
  | indirect t => cases t <;> rfl
  | _ => rfl

def Instruction.relabel (i : Instruction) : Instruction where
  mnemonic := i.mnemonic
  operand := i.operand.relabel r
  opcode := i.opcode
  encoded := by
    rw [i.operand.mode_relabel r]
    exact i.encoded

def Nucleus.relabel : Nucleus -> Nucleus
  | .instruction i => .instruction (i.relabel r)
  | .directive d => .directive d

def Statement.relabel (st : Statement) : Statement :=
  ⟨r.line st.line, st.label?.map (LabelRef.relabel r), st.nucleus?.map (Nucleus.relabel r)⟩

/-!
# Relabelled states and failures
-/

def Fixup.relabel (f : Fixup) : Fixup :=
  { f with label := f.label.relabel r, line := r.line f.line }

def Symbols.relabel (t : Symbols) : Symbols :=
  ⟨t.labels.map fun e => (r.name e.1, e.2), t.pending.map (Fixup.relabel r)⟩

def State.relabel (s : State) : State :=
  { s with symbols := s.symbols.relabel r }

def Program.relabel (p : Program) : Program :=
  { p with symbols := p.symbols.relabel r }

def StatementError.Kind.relabel : StatementError.Kind -> StatementError.Kind
  | .labelNotAtLineStart name => .labelNotAtLineStart (r.name name)
  | .duplicateLabel name => .duplicateLabel (r.name name)
  | .unresolvedLabel name => .unresolvedLabel (r.name name)
  | kind => kind

def StatementError.relabel (e : StatementError) : StatementError :=
  ⟨e.kind.relabel r, r.line e.line, e.token⟩

/-- The second failure is the first one under the new names and numbers. -/
def StatementError.Relabelled (e e' : StatementError) : Prop :=
  e' = e.relabel r

def StatementError.Kind.Relabelled (kind kind' : StatementError.Kind) : Prop :=
  kind' = kind.relabel r

/-- An address is found under the new name of its label, because no other label has that name. -/
theorem Symbols.address?_relabel (t : Symbols) (name : String) :
    (t.relabel r).address? (r.name name) = t.address? name := by
  unfold address? relabel
  induction t.labels with
  | nil =>
      rfl
  | cons e es ih =>
      have hsame : (r.name name == r.name e.1) = (name == e.1) := by
        rw [Bool.eq_iff_iff, beq_iff_eq, beq_iff_eq, r.injective.eq_iff]
      rw [List.map_cons, List.lookup_cons, List.lookup_cons, hsame, ih]

theorem mirrors_located {α α' : Type} {f : α -> α'} {x : Except StatementError.Kind α}
    {x' : Except StatementError.Kind α'} (h : Mirrors (StatementError.Kind.Relabelled r) f x x')
    (line token : Nat) :
    Mirrors (StatementError.Relabelled r) f (located line token x)
      (located (r.line line) token x') := by
  apply h.mapError
  rintro kind kind' rfl
  rfl

theorem RefKind.mirrors_encode (kind : RefKind) (target origin : UInt16) :
    Mirrors (StatementError.Kind.Relabelled r) id (kind.encode target origin)
      (kind.encode target origin) := by
  cases kind with
  | absolute =>
      exact .ok (wordBytes target)
  | relative =>
      unfold encode branchOffset
      simp only
      split
      · exact .ok _
      · exact .error rfl

namespace State

/-!
# Steps of relabelled statements
-/

theorem mirrors_emit (s : State) (b : UInt8) :
    Mirrors (StatementError.Kind.Relabelled r) (relabel r) (s.emit b)
      ((s.relabel r).emit b) := by
  unfold emit
  have hover : (s.relabel r).overflowed = s.overflowed := rfl
  rw [hover]
  split
  · exact .error rfl
  · exact .ok _

theorem mirrors_emitAll (s : State) (bs : List UInt8) :
    Mirrors (StatementError.Kind.Relabelled r) (relabel r) (s.emitAll bs)
      ((s.relabel r).emitAll bs) := by
  apply Mirrors.foldlM (List.forall₂_same.mpr fun _ _ => rfl)
  rintro t b _ rfl
  exact mirrors_emit r t b

theorem mirrors_define (s : State) (line : Nat) (l : LabelRef) :
    Mirrors (StatementError.Relabelled r) (relabel r) (s.define line l)
      ((s.relabel r).define (r.line line) (l.relabel r)) := by
  have hover : (s.relabel r).overflowed = s.overflowed := rfl
  have haddress : (s.relabel r).symbols.address? (l.relabel r).name =
      s.symbols.address? l.name := s.symbols.address?_relabel r l.name
  unfold define
  rw [hover, haddress]
  split
  · exact .error rfl
  · split
    · exact .error rfl
    · exact .ok _

theorem relabel_defer (s : State) (line : Nat) (l : LabelRef) (kind : RefKind) :
    (s.relabel r).defer (r.line line) (l.relabel r) kind = (s.defer line l kind).relabel r := by
  simp [defer, relabel, Symbols.defer, Symbols.relabel, Fixup.relabel]

theorem mirrors_operand (s : State) (line token : Nat) (p : Payload) :
    Mirrors (StatementError.Relabelled r) (relabel r) (s.operand line token p)
      ((s.relabel r).operand (r.line line) token (p.relabel r)) := by
  cases p with
  | literal bytes =>
      exact mirrors_located r (mirrors_emitAll r s bytes) line token
  | reference kind l =>
      have haddress : (s.relabel r).symbols.address? (l.relabel r).name =
          s.symbols.address? l.name := s.symbols.address?_relabel r l.name
      unfold operand Payload.relabel
      simp only [haddress]
      cases s.symbols.address? l.name with
      | some target =>
          apply (mirrors_located r (kind.mirrors_encode r target (s.pc - 1)) line l.token).bind
          intro bytes
          exact mirrors_located r (mirrors_emitAll r s bytes) line token
      | none =>
          rw [relabel_defer]
          exact mirrors_located r (mirrors_emitAll r _ kind.placeholder) line token

theorem mirrors_instruction (s : State) (line token : Nat) (i : Instruction) :
    Mirrors (StatementError.Relabelled r) (relabel r) (s.instruction line token i)
      ((s.relabel r).instruction (r.line line) token (i.relabel r)) := by
  apply (mirrors_located r (mirrors_emit r s i.opcode) line token).bind
  intro t
  rw [Instruction.relabel, i.operand.payload_relabel]
  exact mirrors_operand r t line token i.operand.payload

theorem mirrors_nucleus (s : State) (line token : Nat) (nucleus? : Option Nucleus) :
    Mirrors (StatementError.Relabelled r) (relabel r) (s.nucleus line token nucleus?)
      ((s.relabel r).nucleus (r.line line) token (nucleus?.map (Nucleus.relabel r))) := by
  cases nucleus? with
  | none => exact .ok s
  | some n =>
      cases n with
      | instruction i => exact mirrors_instruction r s line token i
      | directive d =>
          cases d with
          | origin a => exact .ok (s.moveTo a)
          | _ => exact mirrors_located r (mirrors_emitAll r s _) line token

theorem mirrors_step (s : State) (st : Statement) :
    Mirrors (StatementError.Relabelled r) (relabel r) (s.step st)
      ((s.relabel r).step (st.relabel r)) := by
  rcases st with ⟨line, label?, nucleus?⟩
  cases label? with
  | none =>
      exact (Mirrors.ok s).bind fun t => mirrors_nucleus r t line 1 nucleus?
  | some l =>
      exact (mirrors_define r s line l).bind fun t => mirrors_nucleus r t line 3 nucleus?

end State

/-!
# Programs of relabelled statements
-/

theorem Fixup.mirrors_patch (t : Symbols) (image : Image) (f : Fixup) :
    Mirrors (StatementError.Relabelled r) id (f.patch t image)
      ((f.relabel r).patch (t.relabel r) image) := by
  have haddress : (t.relabel r).address? (f.relabel r).label.name = t.address? f.label.name :=
    t.address?_relabel r f.label.name
  unfold patch
  rw [haddress]
  cases t.address? f.label.name with
  | none =>
      exact .error rfl
  | some target =>
      apply (mirrors_located r (f.kind.mirrors_encode r target (f.offset - 1)) f.line
        f.label.token).map
      intro bytes
      rfl

theorem State.mirrors_finish (s : State) :
    Mirrors (StatementError.Relabelled r) (Program.relabel r) s.finish (s.relabel r).finish := by
  have hpending : (s.relabel r).symbols.pending.toList =
      s.symbols.pending.toList.map (Fixup.relabel r) := Array.toList_map
  have hpatches : Mirrors (StatementError.Relabelled r) id
      (s.symbols.pending.toList.foldlM (Fixup.patch s.symbols) s.image)
      ((s.relabel r).symbols.pending.toList.foldlM (Fixup.patch (s.relabel r).symbols)
        s.image) := by
    rw [hpending]
    apply Mirrors.foldlM (R := fun f f' => f' = f.relabel r)
    · rw [List.forall₂_map_right_iff, List.forall₂_same]
      intro f _
      rfl
    · rintro image f _ rfl
      exact f.mirrors_patch r s.symbols image
  apply hpatches.bind
  intro image
  have hempty : ({ (s.relabel r).symbols with pending := #[] } : Symbols) =
      Symbols.relabel r { s.symbols with pending := #[] } := by
    simp [relabel, Symbols.relabel]
  rw [hempty]
  exact .ok (Program.mk image { s.symbols with pending := #[] })

namespace Program

/--
Statements that are relabelled one by one make up a program that is relabelled.  Lines that
cannot be read may differ in more than their labels.
-/
theorem mirrors_ofReadings {E : StatementError -> StatementError -> Prop}
    (hE : forall e, E e (e.relabel r)) {rs rs' : List (Except StatementError Statement)}
    (h : List.Forall₂ (Mirrors E (Statement.relabel r)) rs rs') :
    Mirrors E (relabel r) (ofReadings rs) (ofReadings rs') := by
  have hweaken {α α' : Type} {f : α -> α'} {x x'}
      (hx : Mirrors (StatementError.Relabelled r) f x x') : Mirrors E f x x' := by
    cases hx with
    | ok a => exact .ok a
    | error he =>
        cases he
        exact .error (hE _)
  have hstart : State.start.relabel r = State.start := by
    simp [State.start, State.relabel, Symbols.empty, Symbols.relabel]
  have hlines : Mirrors E (State.relabel r)
      (rs.foldlM (fun s x => x >>= State.step s) State.start)
      (rs'.foldlM (fun s x => x >>= State.step s) (State.start.relabel r)) := by
    apply Mirrors.foldlM h
    intro s x x' hx
    exact hx.bind fun st => hweaken (State.mirrors_step r s st)
  rw [hstart] at hlines
  exact hlines.bind fun s => hweaken (State.mirrors_finish r s)

end Program
end Asm65
