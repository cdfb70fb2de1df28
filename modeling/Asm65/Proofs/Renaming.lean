import Asm65.Proofs.Relabelling

/-!
# Renamed labels

A label token is a definition, an operand or the name of a register, and the readers tell
these apart by where the token stands and by three names.  So a renaming that leaves the
registers alone is not seen by the readers: they take the same turns, and what they read is
relabelled.  If they fail, they fail at the same token; only the text of that token may show
another name.
-/

namespace Asm65

/-- New names for labels, each of them only once.  The names of registers stay. -/
structure Renaming where
  name : String -> String
  injective : Function.Injective name
  accumulator : name "A" = "A"
  indexX : name "X" = "X"
  indexY : name "Y" = "Y"

namespace Renaming

def relabelling (r : Renaming) : Relabelling :=
  ⟨r.name, id, r.injective⟩

theorem name_eq_iff (r : Renaming) {name register : String} (h : r.name register = register) :
    r.name name = register <-> name = register := by
  conv_lhs => rw [<- h]
  exact r.injective.eq_iff

end Renaming

variable (r : Renaming)

def Token.rename : Token -> Token
  | .label name => .label (r.name name)
  | token => token

def TokenLine.rename (l : TokenLine) : TokenLine :=
  ⟨l.number, l.tokens.map (Token.rename r)⟩

def Rest.rename (rest : Rest) : Rest :=
  ⟨rest.next, rest.tokens.map (Token.rename r)⟩

theorem Token.rename_injective : Function.Injective (rename r) := by
  intro t u h
  cases t with
  | label name =>
      cases u with
      | label name' =>
          injection h with hname
          rw [r.injective hname]
      | _ => cases h
  | _ =>
      cases u with
      | label name => cases h
      | _ => exact h

/-!
# Failures of reading
-/

/-- The second failure is of the same kind, and what it says about labels is renamed. -/
inductive StatementError.Kind.Renames : StatementError.Kind -> StatementError.Kind -> Prop where
  | unexpectedToken {found found' : String} {kind : Token.Kind} :
      Renames (.unexpectedToken found kind) (.unexpectedToken found' kind)
  | expected {wanted found found' : String} :
      Renames (.expected wanted found) (.expected wanted found')
  | labelNotAtLineStart {name : String} :
      Renames (.labelNotAtLineStart name) (.labelNotAtLineStart (r.name name))
  | duplicateLabel {name : String} :
      Renames (.duplicateLabel name) (.duplicateLabel (r.name name))
  | modeUndefined {mnemonic : Mnemonic} {mode : Mode} :
      Renames (.modeUndefined mnemonic mode) (.modeUndefined mnemonic mode)
  | byteExpected {value : UInt16} :
      Renames (.byteExpected value) (.byteExpected value)
  | offsetOutOfRange {displacement : Int} :
      Renames (.offsetOutOfRange displacement) (.offsetOutOfRange displacement)
  | unresolvedLabel {name : String} :
      Renames (.unresolvedLabel name) (.unresolvedLabel (r.name name))
  | pcOverflow :
      Renames .pcOverflow .pcOverflow

/-- The failures are of one kind, and they point at the same token. -/
structure Fault.Renames (f f' : Fault) : Prop where
  kind : f.kind.Renames r f'.kind
  token : f'.token = f.token

/-- The failures are of one kind, and they point at the same token of the same line. -/
structure StatementError.Renames (e e' : StatementError) : Prop where
  kind : e.kind.Renames r e'.kind
  line : e'.line = e.line
  token : e'.token = e.token

theorem StatementError.renames_relabel (e : StatementError) :
    e.Renames r (e.relabel r.relabelling) := by
  rcases e with ⟨kind, line, token⟩
  constructor
  · cases kind <;> constructor
  · rfl
  · rfl

/-!
# Readers of renamed tokens
-/

namespace Rest

/-- What the renamed tokens give, together with the tokens that are left. -/
abbrev Reads {α α' : Type} (f : α -> α') :
    Except Fault (α × Rest) -> Except Fault (α' × Rest) -> Prop :=
  Mirrors (Fault.Renames r) (Prod.map f (rename r))

theorem reads_ok {α α' : Type} (f : α -> α') (a : α) (rest : Rest) :
    Reads r f (.ok (a, rest)) (.ok (f a, rest.rename r)) :=
  Mirrors.ok (a, rest)

theorem renames_expected (rest : Rest) (wanted : String) :
    (rest.expected wanted).Renames r ((rest.rename r).expected wanted) :=
  ⟨.expected, rfl⟩

theorem renames_unexpected (rest : Rest) :
    rest.unexpected.Renames r (rest.rename r).unexpected := by
  rcases rest with ⟨next, tokens⟩
  cases tokens with
  | nil => exact ⟨.expected, rfl⟩
  | cons t ts =>
      cases t <;> exact ⟨.unexpectedToken, rfl⟩

theorem mirrors_expect {t : Token} (ht : t.rename r = t) (wanted : String) (rest : Rest) :
    Mirrors (Fault.Renames r) (rename r) (rest.expect t wanted)
      ((rest.rename r).expect t wanted) := by
  rcases rest with ⟨next, tokens⟩
  cases tokens with
  | nil => exact .error (renames_expected r _ wanted)
  | cons u us =>
      have hsame : u.rename r = t <-> u = t := by
        conv_lhs => rw [<- ht]
        exact (Token.rename_injective r).eq_iff
      simp only [expect, rename, List.map_cons, hsame]
      split
      · exact .ok (Rest.mk (next + 1) us)
      · exact .error (renames_expected r ⟨next, u :: us⟩ wanted)

theorem mirrors_expectEnd (rest : Rest) :
    Mirrors (Fault.Renames r) id rest.expectEnd (rest.rename r).expectEnd := by
  rcases rest with ⟨next, tokens⟩
  cases tokens with
  | nil => exact .ok ()
  | cons t ts => exact .error (renames_expected r ⟨next, t :: ts⟩ _)

theorem mirrors_byteAt (k : Nat) (n : UInt16) :
    Mirrors (Fault.Renames r) id (byteAt k n) (byteAt k n) := by
  unfold byteAt
  split
  · exact .ok _
  · exact .error ⟨.byteExpected, rfl⟩

theorem reads_valuesFrom {α : Type} {item : Nat -> UInt16 -> Except Fault α}
    (hitem : forall k n, Mirrors (Fault.Renames r) id (item k n) (item k n)) (k : Nat)
    (ts : List Token) :
    Reads r id (valuesFrom item k ts) (valuesFrom item k (ts.map (Token.rename r))) := by
  fun_induction valuesFrom item k ts with
  | case1 k n ts ih =>
      apply (hitem k n).bind
      intro first
      apply ih.bind
      intro others
      exact reads_ok r id (first :: others.1) others.2
  | case2 k n ts hcomma =>
      have hread : valuesFrom item k ((Token.number n :: ts).map (Token.rename r)) =
          item k n >>= fun only => .ok ([only], ⟨k + 1, ts.map (Token.rename r)⟩) := by
        cases ts with
        | nil => rfl
        | cons t ts =>
            cases t with
            | comma => exact (hcomma ts rfl).elim
            | _ => rfl
      rw [hread]
      apply (hitem k n).bind
      intro only
      exact reads_ok r id [only] ⟨k + 1, ts⟩
  | case3 k ts hmore hone =>
      have hread : valuesFrom item k (ts.map (Token.rename r)) =
          .error (expected Token.Kind.number.text ⟨k, ts.map (Token.rename r)⟩) := by
        cases ts with
        | nil => rfl
        | cons t ts =>
            cases t with
            | number n => exact (hone n ts rfl).elim
            | _ => rfl
      rw [hread]
      exact .error (renames_expected r ⟨k, ts⟩ _)

theorem reads_number (rest : Rest) : Reads r id rest.number (rest.rename r).number := by
  rcases rest with ⟨next, tokens⟩
  cases tokens with
  | nil => exact .error (renames_expected r _ _)
  | cons t ts =>
      cases t with
      | number n => exact reads_ok r id n ⟨next + 1, ts⟩
      | _ => exact .error (renames_expected r ⟨next, _ :: ts⟩ _)

theorem reads_directive (name : String) (k : Nat) (rest : Rest) :
    Reads r id (directive name k rest) (directive name k (rest.rename r)) := by
  have hwords : Reads r id (rest.values wordAt) ((rest.rename r).values wordAt) :=
    reads_valuesFrom r (fun _ n => .ok n) rest.next rest.tokens
  have hbytes : Reads r id (rest.values byteAt) ((rest.rename r).values byteAt) :=
    reads_valuesFrom r (mirrors_byteAt r) rest.next rest.tokens
  unfold directive
  split
  · exact hwords.map fun _ => rfl
  · split
    · exact hbytes.map fun _ => rfl
    · split
      · exact hwords.map fun _ => rfl
      · split
        · exact (reads_number r rest).map fun _ => rfl
        · exact .error ⟨.unexpectedToken, rfl⟩

theorem reads_indexed (n : UInt16) (rest : Rest) :
    Reads r (Operand.relabel r.relabelling) (indexed n rest) (indexed n (rest.rename r)) := by
  rcases rest with ⟨next, tokens⟩
  cases tokens with
  | nil => exact .error (renames_unexpected r _)
  | cons t ts =>
      cases t with
      | label name =>
          simp only [indexed, rename, List.map_cons, Token.rename, r.name_eq_iff r.indexX,
            r.name_eq_iff r.indexY]
          split
          · split
            · exact reads_ok r (Operand.relabel r.relabelling) (.zeroPageX n.toUInt8) ⟨next + 1, ts⟩
            · exact reads_ok r (Operand.relabel r.relabelling) (.absoluteX n) ⟨next + 1, ts⟩
          · split
            · split
              · exact reads_ok r (Operand.relabel r.relabelling) (.zeroPageY n.toUInt8)
                  ⟨next + 1, ts⟩
              · exact reads_ok r (Operand.relabel r.relabelling) (.absoluteY n) ⟨next + 1, ts⟩
            · exact .error (renames_unexpected r ⟨next, .label name :: ts⟩)
      | _ => exact .error (renames_unexpected r ⟨next, _ :: ts⟩)

theorem mirrors_expectMark {t : Token} (ht : t.rename r = t) (rest : Rest) :
    Mirrors (Fault.Renames r) (rename r) (rest.expectMark t) ((rest.rename r).expectMark t) :=
  mirrors_expect r ht t.kind.text rest

theorem mirrors_expectRegister {name : String} (h : r.name name = name) (rest : Rest) :
    Mirrors (Fault.Renames r) (rename r) (rest.expectRegister name)
      ((rest.rename r).expectRegister name) :=
  mirrors_expect r (t := .label name) (congrArg Token.label h) _ rest

theorem reads_indirect (n : UInt16) (rest : Rest) :
    Reads r (Operand.relabel r.relabelling) (indirect n rest) (indirect n (rest.rename r)) := by
  rcases rest with ⟨next, tokens⟩
  unfold indirect
  split
  · cases tokens with
    | nil => exact .error (renames_unexpected r _)
    | cons t ts =>
        cases t with
        | comma =>
            apply (mirrors_expectRegister r r.indexX ⟨next + 1, ts⟩).bind
            intro rest
            apply (mirrors_expectMark r rfl rest).bind
            intro rest
            exact reads_ok r (Operand.relabel r.relabelling) (.indirectX n.toUInt8) rest
        | rparen =>
            apply (mirrors_expectMark r rfl ⟨next + 1, ts⟩).bind
            intro rest
            apply (mirrors_expectRegister r r.indexY rest).bind
            intro rest
            exact reads_ok r (Operand.relabel r.relabelling) (.indirectY n.toUInt8) rest
        | _ => exact .error (renames_unexpected r ⟨next, _ :: ts⟩)
  · exact (mirrors_expectMark r rfl ⟨next, tokens⟩).map fun _ => rfl

theorem relabel_direct (m : Mnemonic) (n : UInt16) :
    (direct m n).relabel r.relabelling = direct m n := by
  unfold direct
  split
  · split <;> rfl
  · rfl

theorem reads_operand (m : Mnemonic) (rest : Rest) :
    Reads r (Operand.relabel r.relabelling) (rest.operand m) ((rest.rename r).operand m) := by
  rcases rest with ⟨k, tokens⟩
  cases tokens with
  | nil => exact reads_ok r (Operand.relabel r.relabelling) .implied ⟨k, []⟩
  | cons t ts =>
      cases t with
      | hash =>
          cases ts with
          | nil => exact .error (renames_expected r ⟨k + 1, []⟩ _)
          | cons u us =>
              cases u with
              | number n => exact (mirrors_byteAt r (k + 1) n).map fun _ => rfl
              | _ => exact .error (renames_expected r ⟨k + 1, _ :: us⟩ _)
      | label name =>
          simp only [operand, rename, List.map_cons, Token.rename, r.name_eq_iff r.accumulator]
          split
          · exact reads_ok r (Operand.relabel r.relabelling) .accumulator ⟨k + 1, ts⟩
          · split
            · exact reads_ok r (Operand.relabel r.relabelling) (.absolute (.label ⟨name, k⟩))
                ⟨k + 1, ts⟩
            · exact reads_ok r (Operand.relabel r.relabelling) (.relative (.label ⟨name, k⟩))
                ⟨k + 1, ts⟩
      | number n =>
          have hdirect : forall us,
              Reads r (Operand.relabel r.relabelling) (.ok (direct m n, ⟨k + 1, us⟩))
                (.ok (direct m n, ⟨k + 1, us.map (Token.rename r)⟩)) := by
            intro us
            have hread := reads_ok r (Operand.relabel r.relabelling) (direct m n) ⟨k + 1, us⟩
            rwa [relabel_direct] at hread
          cases ts with
          | nil => exact hdirect []
          | cons u us =>
              cases u with
              | comma => exact reads_indexed r n ⟨k + 2, us⟩
              | _ => exact hdirect (_ :: us)
      | lparen =>
          cases ts with
          | nil => exact .error (renames_unexpected r ⟨k + 1, []⟩)
          | cons u us =>
              cases u with
              | number n => exact reads_indirect r n ⟨k + 2, us⟩
              | label name =>
                  exact (mirrors_expectMark r rfl ⟨k + 2, us⟩).map fun _ => rfl
              | _ => exact .error (renames_unexpected r ⟨k + 1, _ :: us⟩)
      | _ => exact .error (renames_unexpected r ⟨k, _ :: ts⟩)

theorem of?_relabel (m : Mnemonic) (operand : Operand) :
    Instruction.of? m (operand.relabel r.relabelling) =
      (Instruction.of? m operand).map (Instruction.relabel r.relabelling) := by
  cases hfound : Instruction.of? m operand with
  | some i =>
      rcases of?_eq_some_iff.mp hfound with ⟨rfl, rfl⟩
      exact of?_eq_some_iff.mpr ⟨rfl, rfl⟩
  | none =>
      unfold Instruction.of? at hfound ⊢
      split at hfound
      · cases hfound
      · next hnone =>
          split
          · next opcode hsome =>
              rw [operand.mode_relabel, hnone] at hsome
              cases hsome
          · rfl

theorem reads_instruction (m : Mnemonic) (rest : Rest) :
    Reads r (Instruction.relabel r.relabelling) (rest.instruction m)
      ((rest.rename r).instruction m) := by
  apply (reads_operand r m rest).bind
  rintro ⟨operand, rest⟩
  simp only [Prod.map, of?_relabel]
  cases Instruction.of? m operand with
  | some i => exact reads_ok r _ i rest
  | none =>
      simp only [Option.map_none, operand.mode_relabel]
      exact .error ⟨.modeUndefined, rfl⟩

theorem reads_definition (rest : Rest) :
    Reads r (Option.map (LabelRef.relabel r.relabelling)) rest.definition
      (rest.rename r).definition := by
  rcases rest with ⟨k, tokens⟩
  cases tokens with
  | nil => exact reads_ok r _ none ⟨k, []⟩
  | cons t ts =>
      cases t with
      | label name => exact (mirrors_expectMark r rfl ⟨k + 1, ts⟩).map fun _ => rfl
      | _ => exact reads_ok r _ none ⟨k, _ :: ts⟩

theorem reads_nucleus (rest : Rest) :
    Reads r (Option.map (Nucleus.relabel r.relabelling)) rest.nucleus (rest.rename r).nucleus := by
  rcases rest with ⟨k, tokens⟩
  cases tokens with
  | nil => exact reads_ok r _ none ⟨k, []⟩
  | cons t ts =>
      cases t with
      | label name => exact .error ⟨.labelNotAtLineStart, rfl⟩
      | directive name => exact (reads_directive r name k ⟨k + 1, ts⟩).map fun _ => rfl
      | mnemonic m => exact (reads_instruction r m ⟨k + 1, ts⟩).map fun _ => rfl
      | _ => exact .error (renames_unexpected r ⟨k, _ :: ts⟩)

end Rest

/-!
# Renamed lines
-/

theorem Statement.mirrors_ofLine (l : TokenLine) :
    Mirrors (StatementError.Renames r) (relabel r.relabelling) (ofLine l)
      (ofLine (l.rename r)) := by
  have htokens : Mirrors (Fault.Renames r) (relabel r.relabelling)
      (ofTokens l.number l.tokens) (ofTokens l.number (l.rename r).tokens) := by
    apply (Rest.reads_definition r ⟨1, l.tokens⟩).bind
    rintro ⟨label?, rest⟩
    apply (Rest.reads_nucleus r rest).bind
    rintro ⟨nucleus?, rest⟩
    apply (Rest.mirrors_expectEnd r rest).bind
    intro _
    exact .ok (Statement.mk l.number label? nucleus?)
  apply htokens.mapError
  intro f f' h
  exact ⟨h.kind, rfl, h.token⟩

namespace Program

theorem mirrors_ofLines (ls : List TokenLine) :
    Mirrors (StatementError.Renames r) (relabel r.relabelling) (ofLines ls)
      (ofLines (ls.map (TokenLine.rename r))) := by
  rw [ofLines_eq_ofReadings, ofLines_eq_ofReadings, List.map_map]
  apply mirrors_ofReadings r.relabelling (StatementError.renames_relabel r)
  rw [List.forall₂_map_left_iff, List.forall₂_map_right_iff, List.forall₂_same]
  intro l _
  exact Statement.mirrors_ofLine r l

/--
Renamed lines are assembled exactly if the lines are.  Then they give the same image, and
each label has its address under its new name; otherwise they fail in the same way and at
the same place.
-/
theorem ofLines_rename (r : Renaming) (ls : List TokenLine) :
    ((exists p', ofLines (ls.map (TokenLine.rename r)) = .ok p') <->
      exists p, ofLines ls = .ok p) ∧
    (forall p p', ofLines ls = .ok p -> ofLines (ls.map (TokenLine.rename r)) = .ok p' ->
      p'.image = p.image ∧
        forall name, p'.symbols.address? (r.name name) = p.symbols.address? name) ∧
    (forall e e', ofLines ls = .error e -> ofLines (ls.map (TokenLine.rename r)) = .error e' ->
      e.kind.Renames r e'.kind ∧ e'.line = e.line ∧ e'.token = e.token) := by
  have hmirrors := mirrors_ofLines r ls
  refine ⟨hmirrors.exists_ok_iff, ?_, ?_⟩
  · intro p p' h h'
    rw [hmirrors.eq_of_ok h h']
    exact ⟨rfl, p.symbols.address?_relabel r.relabelling⟩
  · intro e e' h h'
    have hrenames := hmirrors.of_error h h'
    exact ⟨hrenames.kind, hrenames.line, hrenames.token⟩

end Program

/-- Two labels change their names with each other. -/
def Renaming.crossed : Renaming where
  name := Equiv.swap "LOOP" "END"
  injective := (Equiv.swap "LOOP" "END").injective
  accumulator := by decide
  indexX := by decide
  indexY := by decide

/-- Each of two labels is used where the other is defined.  The first line alone fails. -/
def TokenLine.crossReferences : List TokenLine :=
  [ ⟨1, [.label "LOOP", .colon, .mnemonic .bne, .label "END"]⟩,
    ⟨2, [.label "END", .colon, .mnemonic .jmp, .label "LOOP"]⟩ ]

theorem Program.crossReferences_crossed :
    ofLines TokenLine.crossReferences =
        .ok ⟨#[0xD0, 0, 0x4C, 0, 0], ⟨[("END", 2), ("LOOP", 0)], #[]⟩⟩ ∧
      ofLines (TokenLine.crossReferences.map (TokenLine.rename .crossed)) =
        .ok ⟨#[0xD0, 0, 0x4C, 0, 0], ⟨[("LOOP", 2), ("END", 0)], #[]⟩⟩ ∧
      (forall name, Symbols.address? ⟨[("LOOP", 2), ("END", 0)], #[]⟩ (Renaming.crossed.name name) =
        Symbols.address? ⟨[("END", 2), ("LOOP", 0)], #[]⟩ name) ∧
      ofLines (TokenLine.crossReferences.take 1) = .error ⟨.unresolvedLabel "END", 1, 4⟩ ∧
      StatementError.Kind.Renames .crossed (.unresolvedLabel "END") (.unresolvedLabel "LOOP") := by
  have hok : ofLines TokenLine.crossReferences =
      .ok ⟨#[0xD0, 0, 0x4C, 0, 0], ⟨[("END", 2), ("LOOP", 0)], #[]⟩⟩ := by decide +kernel
  have hok' : ofLines (TokenLine.crossReferences.map (TokenLine.rename .crossed)) =
      .ok ⟨#[0xD0, 0, 0x4C, 0, 0], ⟨[("LOOP", 2), ("END", 0)], #[]⟩⟩ := by decide +kernel
  have herror : ofLines (TokenLine.crossReferences.take 1) =
      .error ⟨.unresolvedLabel "END", 1, 4⟩ := by decide +kernel
  have herror' : ofLines ((TokenLine.crossReferences.take 1).map (TokenLine.rename .crossed)) =
      .error ⟨.unresolvedLabel "LOOP", 1, 4⟩ := by decide +kernel
  exact ⟨hok, hok', ((ofLines_rename .crossed _).right.left _ _ hok hok').right, herror,
    ((ofLines_rename .crossed _).right.right _ _ herror herror').left⟩

end Asm65
