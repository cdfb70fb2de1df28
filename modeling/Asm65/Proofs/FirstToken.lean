import Asm65.Proofs.Viability

/-!
# The first token that fails

A line fails at the first token with which its tokens begin no line any more, or at its end.

Whether an instruction can be encoded is left aside at first: a line has the right shape if it
follows the grammar with any operand for any mnemonic.  Only behind a complete instruction does
the opcode table have its say.
-/

namespace Asm65

/-!
# Shapes of lines
-/

namespace Grammar

/-- What a line says besides its label, whether it can be encoded or not. -/
inductive Content
  | directive (d : Directive)
  | instruction (m : Mnemonic) (operand : Operand)

/-- A directive, or a mnemonic with any operand, from token `k` on. -/
inductive ShapesContent (k : Nat) : List Token -> Content -> Prop where
  | directive {ts : List Token} {d : Directive} :
      DerivesDirective ts d -> ShapesContent k ts (.directive d)
  | instruction {ts : List Token} {m : Mnemonic} {operand : Operand} :
      DerivesOperand m (k + 1) ts operand ->
        ShapesContent k (.mnemonic m :: ts) (.instruction m operand)

/-- The rules for whole lines, without the opcode table. -/
inductive ShapesLine : List Token -> Option LabelRef -> Option Content -> Prop where
  | empty :
      ShapesLine [] none none
  | label {name : String} :
      ShapesLine [.label name, .colon] (some ⟨name, 1⟩) none
  | labelled {name : String} {ts : List Token} {content : Content} :
      ShapesContent 3 ts content ->
        ShapesLine (.label name :: .colon :: ts) (some ⟨name, 1⟩) (some content)
  | bare {ts : List Token} {content : Content} :
      ShapesContent 1 ts content -> ShapesLine ts none (some content)

/-- The tokens have the shape of a line with this content. -/
def Shaped (ts : List Token) (content? : Option Content) : Prop :=
  exists label?, ShapesLine ts label? content?

/-- The opcode table lists the instruction, if it is one. -/
def Content.Encodable : Content -> Prop
  | .directive _ => True
  | .instruction m operand => m.opcode? operand.mode ≠ none

theorem exists_derivesNucleus_iff {k : Nat} {ts : List Token} :
    (exists n, DerivesNucleus k ts n) <->
      exists content, ShapesContent k ts content ∧ content.Encodable := by
  constructor
  · intro h
    rcases h with ⟨n, hn⟩
    cases hn with
    | directive hdirective => exact ⟨_, .directive hdirective, trivial⟩
    | instruction hopcode hoperand =>
        refine ⟨_, .instruction hoperand, ?_⟩
        rw [Content.Encodable, hopcode]
        exact Option.some_ne_none _
  · intro h
    rcases h with ⟨content, hcontent, hencodable⟩
    cases hcontent with
    | directive hdirective => exact ⟨_, .directive hdirective⟩
    | instruction hoperand =>
        rcases Option.ne_none_iff_exists'.mp hencodable with ⟨opcode, hopcode⟩
        exact ⟨_, .instruction hopcode hoperand⟩

/-- The lines of the grammar are those of the right shape that can be encoded. -/
theorem exists_derivesLine_iff {ts : List Token} :
    (exists label? nucleus?, DerivesLine ts label? nucleus?) <->
      exists content?, Shaped ts content? ∧
        forall content, content? = some content -> content.Encodable := by
  constructor
  · intro h
    rcases h with ⟨label?, nucleus?, hline⟩
    cases hline with
    | empty => exact ⟨_, ⟨_, .empty⟩, fun _ h => nomatch h⟩
    | label => exact ⟨_, ⟨_, .label⟩, fun _ h => nomatch h⟩
    | labelled hn =>
        rcases exists_derivesNucleus_iff.mp ⟨_, hn⟩ with ⟨content, hcontent, hencodable⟩
        exact ⟨_, ⟨_, .labelled hcontent⟩, fun _ h => Option.some.inj h ▸ hencodable⟩
    | bare hn =>
        rcases exists_derivesNucleus_iff.mp ⟨_, hn⟩ with ⟨content, hcontent, hencodable⟩
        exact ⟨_, ⟨_, .bare hcontent⟩, fun _ h => Option.some.inj h ▸ hencodable⟩
  · intro h
    rcases h with ⟨content?, ⟨label?, hline⟩, hencodable⟩
    cases hline with
    | empty => exact ⟨_, _, .empty⟩
    | label => exact ⟨_, _, .label⟩
    | labelled hcontent =>
        rcases exists_derivesNucleus_iff.mpr ⟨_, hcontent, hencodable _ rfl⟩ with ⟨n, hn⟩
        exact ⟨_, _, .labelled hn⟩
    | bare hcontent =>
        rcases exists_derivesNucleus_iff.mpr ⟨_, hcontent, hencodable _ rfl⟩ with ⟨n, hn⟩
        exact ⟨_, _, .bare hn⟩

end Grammar

namespace Rest

open Grammar

/-!
# Lines
-/

/-- Reads what `nucleus` reads, but leaves the opcode table aside. -/
def content (r : Rest) : Except Fault (Option Content × Rest) :=
  match r.tokens with
  | [] => .ok (none, r)
  | .label name :: _ => .error ⟨.labelNotAtLineStart name, r.next⟩
  | .directive name :: ts =>
      (directive name r.next ⟨r.next + 1, ts⟩).map fun (d, r) => (some (.directive d), r)
  | .mnemonic m :: ts =>
      (operand m ⟨r.next + 1, ts⟩).map fun (op, r) => (some (.instruction m op), r)
  | _ => .error r.unexpected

/-- Finds the opcode of what has been read, or fails at the last token of it. -/
def encode : Option Content × Rest -> Except Fault (Option Nucleus × Rest)
  | (none, r) => .ok (none, r)
  | (some (.directive d), r) => .ok (some (.directive d), r)
  | (some (.instruction m op), r) =>
      match Instruction.of? m op with
      | some i => .ok (some (.instruction i), r)
      | none => .error ⟨.modeUndefined m op.mode, r.next - 1⟩

theorem encode_eq_error {content? : Option Content} {r : Rest} {f : Fault}
    (h : encode (content?, r) = .error f) :
    exists m op, content? = some (.instruction m op) ∧ m.opcode? op.mode = none ∧
      f = ⟨.modeUndefined m op.mode, r.next - 1⟩ := by
  unfold encode at h
  split at h
  · cases h
  · cases h
  · next m op _ heq =>
      cases heq
      split at h
      · cases h
      · next hof =>
          cases h
          refine ⟨m, op, rfl, ?_, rfl⟩
          unfold Instruction.of? at hof
          split at hof
          · cases hof
          · next hnone => exact hnone

theorem encode_eq_ok {content? : Option Content} {r r' : Rest} {nucleus? : Option Nucleus}
    (h : encode (content?, r) = .ok (nucleus?, r')) : r' = r := by
  unfold encode at h
  split at h
  · next heq =>
      cases heq
      cases h
      rfl
  · next heq =>
      cases heq
      cases h
      rfl
  · next heq =>
      cases heq
      split at h
      · cases h
        rfl
      · cases h

/-- The opcode table comes last. -/
theorem nucleus_eq (r : Rest) : r.nucleus = r.content >>= encode := by
  rcases r with ⟨k, ts⟩
  cases ts with
  | nil => rfl
  | cons t ts =>
      cases t with
      | directive name =>
          change (directive name k ⟨k + 1, ts⟩).map _ = (directive name k ⟨k + 1, ts⟩).map _ >>= _
          cases directive name k ⟨k + 1, ts⟩ with
          | error f => rfl
          | ok result => rfl
      | mnemonic m =>
          change (instruction m ⟨k + 1, ts⟩).map _ = (operand m ⟨k + 1, ts⟩).map _ >>= _
          unfold instruction
          cases operand m ⟨k + 1, ts⟩ with
          | error f => rfl
          | ok result =>
              rcases result with ⟨op, r⟩
              change Except.map _ (match Instruction.of? m op with
                | some i => _
                | none => _) = encode (some (.instruction m op), r)
              cases hof : Instruction.of? m op with
              | none =>
                  simp only [encode, hof]
                  rfl
              | some i =>
                  simp only [encode, hof]
                  rfl
      | _ => rfl

/-- The content of a line, if there is any. -/
def ShapesRest (k : Nat) (ts : List Token) (content? : Option Content) : Prop :=
  (ts = [] ∧ content? = none) ∨ exists content, ShapesContent k ts content ∧ some content = content?

theorem shapesRest_of_content {k : Nat} {ts : List Token} {content : Content}
    (h : ShapesContent k ts content) : ShapesRest k ts (some content) :=
  Or.inr ⟨content, h, rfl⟩

theorem shapesContent_head {k : Nat} {ts : List Token} {content : Content}
    (h : ShapesContent k ts content) :
    (exists name, ts.head? = some (.directive name)) ∨ exists m, ts.head? = some (.mnemonic m) := by
  cases h with
  | directive hd => cases hd <;> exact Or.inl ⟨_, rfl⟩
  | instruction _ => exact Or.inr ⟨_, rfl⟩

theorem predicts_content (k : Nat) (ts : List Token) :
    Predicts (ShapesRest k) k ts (content ⟨k, ts⟩) := by
  have hviable : Viable (ShapesRest k) [] := ⟨[], none, Or.inl ⟨rfl, rfl⟩⟩
  -- no other token than a directive or a mnemonic begins the content of a line
  have hstop {t : Token} (hdirective : forall name, t ≠ .directive name)
      (hmnemonic : forall m, t ≠ .mnemonic m) (us : List Token) (content? : Option Content)
      (hhead : us.head? = some t) : ¬ ShapesRest k us content? := by
    intro h
    rcases h with ⟨rfl, _⟩ | ⟨content, hcontent, _⟩
    · cases hhead
    · rcases shapesContent_head hcontent with ⟨name, hname⟩ | ⟨m, hm⟩
      · exact hdirective name (Option.some.inj (hhead.symm.trans hname))
      · exact hmnemonic m (Option.some.inj (hhead.symm.trans hm))
  cases ts with
  | nil =>
      refine .ok [] rfl (Or.inl ⟨rfl, rfl⟩) ?_
      intro t after h
      cases h
  | cons t ts =>
      cases t with
      | label name =>
          refine .fails hviable ?_ (.label name)
          exact hstop (fun _ h => nomatch h) (fun _ h => nomatch h)
      | directive name =>
          refine (predicts_directive name k ts).transport
            (fun d => some (Content.directive d)) [] ?_ ?_
          · intro us d hd
            exact shapesRest_of_content (.directive hd)
          · intro us content? hhead h
            rcases h with ⟨rfl, _⟩ | ⟨content, hcontent, _⟩
            · cases hhead
            · cases hcontent with
              | directive hd => exact ⟨_, hd⟩
              | instruction _ => cases hhead
      | mnemonic m =>
          refine (predicts_operand m (k + 1) ts).transport
            (fun op => some (Content.instruction m op)) [.mnemonic m] ?_ ?_
          · intro us op hop
            exact shapesRest_of_content (.instruction hop)
          · intro us content? _ h
            rcases h with ⟨h, _⟩ | ⟨content, hcontent, _⟩
            · cases h
            · cases hcontent with
              | directive hd => cases hd
              | instruction hop => exact ⟨_, hop⟩
      | _ =>
          refine .fails_unexpected hviable ?_
          exact hstop (fun _ h => nomatch h) (fun _ h => nomatch h)

end Rest

namespace Statement

open Grammar

theorem shaped_of_shapesRest {ts : List Token} {content? : Option Content}
    (h : Rest.ShapesRest 1 ts content?) : Shaped ts content? := by
  rcases h with ⟨rfl, rfl⟩ | ⟨content, hcontent, rfl⟩
  · exact ⟨none, .empty⟩
  · exact ⟨none, .bare hcontent⟩

theorem shapesRest_of_shaped {ts : List Token} {content? : Option Content}
    (h : Shaped ts content?) (hlabel : forall name, ts.head? ≠ some (.label name)) :
    Rest.ShapesRest 1 ts content? := by
  rcases h with ⟨label?, hline⟩
  cases hline with
  | empty => exact Or.inl ⟨rfl, rfl⟩
  | label => exact (hlabel _ rfl).elim
  | labelled _ => exact (hlabel _ rfl).elim
  | bare hcontent => exact Rest.shapesRest_of_content hcontent

theorem shaped_label_iff {name : String} {ts : List Token} {content? : Option Content} :
    Shaped (.label name :: ts) content? <->
      exists rest, ts = .colon :: rest ∧ Rest.ShapesRest 3 rest content? := by
  constructor
  · intro h
    rcases h with ⟨label?, hline⟩
    cases hline with
    | label => exact ⟨[], rfl, Or.inl ⟨rfl, rfl⟩⟩
    | labelled hcontent => exact ⟨_, rfl, Rest.shapesRest_of_content hcontent⟩
    | bare hcontent =>
        rcases Rest.shapesContent_head hcontent with ⟨_, h⟩ | ⟨_, h⟩
        · cases h
        · cases h
  · intro h
    rcases h with ⟨rest, rfl, ⟨rfl, rfl⟩ | ⟨content, hcontent, rfl⟩⟩
    · exact ⟨_, .label⟩
    · exact ⟨_, .labelled hcontent⟩

/-- Up to the opcode table and the end of the line, a line is read token by token. -/
theorem predicts_line (ts : List Token) :
    Predicts Shaped 1 ts (Rest.definition ⟨1, ts⟩ >>= fun result => result.2.content) := by
  by_cases hlabel : exists name us, ts = .label name :: us
  · rcases hlabel with ⟨name, us, rfl⟩
    have hread : (Rest.definition ⟨1, .label name :: us⟩ >>= fun result => result.2.content) =
        Rest.expectMark .colon ⟨2, us⟩ >>= Rest.content :=
      bind_map_left (fun r : Rest => (some (LabelRef.mk name 1), r))
        (Rest.expectMark .colon ⟨2, us⟩) fun result => result.2.content
    rw [hread]
    refine .behind [.label name] (.expect _ ⟨[.colon], _, _, .label⟩ ?_ ?_)
    · intro vs content? h
      rcases shaped_label_iff.mp h with ⟨rest, hvs, _⟩
      exact ⟨rest, hvs⟩
    · intro rest
      refine (Rest.predicts_content 3 rest).within [] ?_ ?_
      · intro vs content? h
        exact shaped_label_iff.mpr ⟨vs, rfl, h⟩
      · intro vs content? _ h
        rcases shaped_label_iff.mp h with ⟨_, hvs, h⟩
        cases hvs
        exact ⟨_, h⟩
  · rw [Rest.definition_other fun name us h => hlabel ⟨name, us, h⟩]
    refine (Rest.predicts_content 1 ts).within [] ?_ ?_
    · intro us content? h
      exact shaped_of_shapesRest h
    · intro us content? hhead h
      refine ⟨content?, shapesRest_of_shaped h ?_⟩
      intro name hname
      rcases List.head?_eq_some_iff.mp (hhead.symm.trans hname) with ⟨rest, hts⟩
      exact hlabel ⟨name, rest, hts⟩

/-!
# The first point of failure
-/

/-- The ways a line can fail: in its shape, for want of an opcode, or behind its end. -/
theorem ofTokens_eq_error {line : Nat} {ts : List Token} {f : Fault}
    (h : ofTokens line ts = .error f) :
    (Rest.definition ⟨1, ts⟩ >>= fun result => result.2.content) = .error f ∨
      exists content? r,
        (Rest.definition ⟨1, ts⟩ >>= fun result => result.2.content) = .ok (content?, r) ∧
        ((exists m operand, content? = some (.instruction m operand) ∧
            m.opcode? operand.mode = none ∧ f = ⟨.modeUndefined m operand.mode, r.next - 1⟩) ∨
          exists t after, r.tokens = t :: after ∧
            f = Rest.expected Token.Kind.endOfLine.text r) := by
  unfold ofTokens at h
  rw [bind_eq_error_iff] at h
  rcases h with hdefinition | ⟨⟨label?, start⟩, hdefinition, h⟩
  · rw [hdefinition]
    exact Or.inl rfl
  · rw [hdefinition]
    change start.nucleus >>= _ = _ at h
    change start.content = _ ∨ exists content? r, start.content = _ ∧ _
    rw [Rest.nucleus_eq, bind_eq_error_iff, bind_eq_error_iff] at h
    rcases h with (hcontent | ⟨⟨content?, r⟩, hcontent, hencode⟩) | ⟨⟨nucleus?, r'⟩, hnucleus, hend⟩
    · exact Or.inl hcontent
    · exact Or.inr ⟨content?, r, hcontent, Or.inl (Rest.encode_eq_error hencode)⟩
    · rcases bind_eq_ok_iff.mp hnucleus with ⟨⟨content?, r⟩, hcontent, hencode⟩
      cases Rest.encode_eq_ok hencode
      refine Or.inr ⟨content?, r', hcontent, Or.inr ?_⟩
      rcases r' with ⟨k, rest⟩
      cases rest with
      | nil => cases hend
      | cons t after =>
          cases hend
          exact ⟨t, after, rfl, rfl⟩

end Statement

/--
The failure of a line is its first.

Unless the opcode is what is missing, the tokens before the failing one begin some line, and with
it they begin none; if the failing one is the end of the line, the tokens are no complete line.
The failure shows the token that it is at, and the end of the line as `EOL`.

If the opcode is missing, the tokens up to the failing one are a complete instruction, which
the opcode table does not list.
-/
structure StatementError.IsFirst (e : StatementError) (ts : List Token) : Prop where
  shape : (forall m mode, e.kind ≠ .modeUndefined m mode) ->
    1 ≤ e.token ∧ Viable Grammar.Shaped (ts.take (e.token - 1)) ∧
      (e.token ≤ ts.length ∧ ¬ Viable Grammar.Shaped (ts.take e.token) ∨
        e.token = ts.length + 1 ∧ forall content?, ¬ Grammar.Shaped ts content?)
  unexpected : forall found kind, e.kind = .unexpectedToken found kind ->
    (kind = .endOfLine <-> e.token = ts.length + 1) ∧
      exists t, ts[e.token - 1]? = some t ∧ found = t.text ∧ kind = t.kind
  expected : forall wanted found, e.kind = .expected wanted found ->
    (found = "EOL" <-> e.token = ts.length + 1) ∧
      forall t, ts[e.token - 1]? = some t ->
        found = "\"" ++ t.text ++ "\" (" ++ t.kind.text ++ ")"
  byte : forall n, e.kind = .byteExpected n ->
    ts[e.token - 1]? = some (.number n) ∧ 255 < n.toNat
  label : forall name, e.kind = .labelNotAtLineStart name ->
    ts[e.token - 1]? = some (.label name)
  opcode : forall m mode, e.kind = .modeUndefined m mode ->
    e.token ≤ ts.length ∧ m.opcode? mode = none ∧
      exists operand, operand.mode = mode ∧
        Grammar.Shaped (ts.take e.token) (some (.instruction m operand))

namespace Statement

open Grammar

theorem quoted_ne_endOfLine (t : Token) :
    "\"" ++ t.text ++ "\" (" ++ t.kind.text ++ ")" ≠ "EOL" := by
  intro h
  have hchars := congrArg String.toList h
  simp at hchars

theorem kind_ne_endOfLine (t : Token) : t.kind ≠ .endOfLine := by
  intro h
  cases t <;> cases h

theorem isFirst_of_failsFirst {ts : List Token} {f : Fault} (line : Nat)
    (h : FailsFirst Shaped 1 ts f) : (f.onLine line).IsFirst ts := by
  cases h with
  | @token before after t kind hbefore ht hfound =>
      have hat : (before ++ t :: after)[1 + before.length - 1]? = some t := by simp
      have hlength : 1 + before.length ≤ (before ++ t :: after).length := by simp; omega
      have hinside : ¬ 1 + before.length = (before ++ t :: after).length + 1 := by omega
      exact {
        shape := by
          intro _
          refine ⟨Nat.le_add_right 1 _, ?_, Or.inl ⟨hlength, ?_⟩⟩
          · simpa [Fault.onLine] using hbefore
          · simpa [Fault.onLine, Nat.add_comm 1, List.take_length_add_append] using ht
        unexpected := by
          intro found kind hkind
          cases hkind
          cases hfound
          exact ⟨iff_of_false (kind_ne_endOfLine t) hinside, t, hat, rfl, rfl⟩
        expected := by
          intro wanted found hkind
          cases hkind
          cases hfound
          refine ⟨iff_of_false (quoted_ne_endOfLine t) hinside, ?_⟩
          intro u hu
          cases hat.symm.trans hu
          rfl
        byte := by
          intro n hkind
          cases hkind
          cases hfound with
          | byte hwide => exact ⟨hat, hwide⟩
        label := by
          intro name hkind
          cases hkind
          cases hfound
          exact hat
        opcode := by
          intro m mode hkind
          cases hkind
          cases hfound }
  | @missing _ kind hviable hincomplete hfound =>
      cases hfound
      exact {
        shape := by
          intro _
          refine ⟨Nat.le_add_right 1 _, ?_, Or.inr ⟨Nat.add_comm 1 _, hincomplete⟩⟩
          simpa [Fault.onLine] using hviable
        unexpected := by
          intro found kind hkind
          cases hkind
        expected := by
          intro wanted found hkind
          cases hkind
          refine ⟨iff_of_true rfl (Nat.add_comm 1 _), ?_⟩
          intro t ht
          simp [Fault.onLine] at ht
        byte := by
          intro n hkind
          cases hkind
        label := by
          intro name hkind
          cases hkind
        opcode := by
          intro m mode hkind
          cases hkind }

theorem isFirst_of_modeUndefined {before : List Token} {m : Mnemonic} {operand : Operand}
    (line : Nat) (rest : List Token) (hshaped : Shaped before (some (.instruction m operand)))
    (hopcode : m.opcode? operand.mode = none) :
    (Fault.onLine line ⟨.modeUndefined m operand.mode, before.length⟩).IsFirst
      (before ++ rest) where
  shape := by
    intro hkind
    exact (hkind m operand.mode rfl).elim
  unexpected := by
    intro found kind hkind
    cases hkind
  expected := by
    intro wanted found hkind
    cases hkind
  byte := by
    intro n hkind
    cases hkind
  label := by
    intro name hkind
    cases hkind
  opcode := by
    intro m' mode hkind
    cases hkind
    refine ⟨?_, hopcode, operand, rfl, ?_⟩
    · simp [Fault.onLine]
    · simpa [Fault.onLine] using hshaped

theorem isFirst_of_ofTokens {line : Nat} {ts : List Token} {f : Fault}
    (h : ofTokens line ts = .error f) : (f.onLine line).IsFirst ts := by
  have hpredicts := predicts_line ts
  rcases ofTokens_eq_error h with hread | ⟨content?, r, hread, hlast⟩
  · rw [hread] at hpredicts
    cases hpredicts with
    | error hfails => exact isFirst_of_failsFirst line hfails
  · rw [hread] at hpredicts
    cases hpredicts with
    | @ok before rest _ hts hshaped hend =>
        subst hts
        rcases hlast with ⟨m, operand, rfl, hopcode, rfl⟩ | ⟨t, after, hrest, rfl⟩
        · simpa using isFirst_of_modeUndefined line rest hshaped hopcode
        · change rest = t :: after at hrest
          subst hrest
          have hbefore : Viable Shaped before := ⟨[], content?, by simpa using hshaped⟩
          exact isFirst_of_failsFirst line
            (.token before hbefore (hend t after rfl) (.expected _ t))

/-- A line fails at the first token that no line has there, or at its end. -/
theorem ofLine_fails_at_first_token (line : TokenLine) :
    ((exists st, ofLine line = .ok st) <->
      exists content?, Shaped line.tokens content? ∧
        forall content, content? = some content -> content.Encodable) ∧
    forall e, ofLine line = .error e -> e.line = line.number ∧ e.IsFirst line.tokens := by
  constructor
  · rw [<- exists_derivesLine_iff]
    constructor
    · intro h
      rcases h with ⟨st, hst⟩
      exact ⟨_, _, ((ofLine_eq_ok_iff line st).mp hst).right⟩
    · intro h
      rcases h with ⟨label?, nucleus?, hline⟩
      exact ⟨⟨line.number, label?, nucleus?⟩, (ofLine_eq_ok_iff line _).mpr ⟨rfl, hline⟩⟩
  · intro e h
    rcases mapError_eq_error_iff.mp h with ⟨f, hf, rfl⟩
    exact ⟨rfl, isFirst_of_ofTokens hf⟩

/-- The wrong register in `LOOP: LDA ($10),X`, at the last of eight tokens. -/
def wrongRegister : TokenLine :=
  ⟨3, [.label "LOOP", .colon, .mnemonic .lda, .lparen, .number 16, .rparen, .comma, .label "X"]⟩

theorem wrongRegister_fails_at_register :
    ofLine wrongRegister = .error ⟨.expected "\"Y\" (LABEL)" "\"X\" (LABEL)", 3, 8⟩ ∧
      (StatementError.mk (.expected "\"Y\" (LABEL)" "\"X\" (LABEL)") 3 8).IsFirst
        wrongRegister.tokens := by
  have hread : ofLine wrongRegister =
      .error ⟨.expected "\"Y\" (LABEL)" "\"X\" (LABEL)", 3, 8⟩ := rfl
  exact ⟨hread, ((ofLine_fails_at_first_token wrongRegister).right _ hread).right⟩

end Statement

end Asm65