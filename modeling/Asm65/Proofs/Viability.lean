import Asm65.Proofs.Parsing

/-!
# Viable beginnings

The tokens that have been read are viable if something that the grammar derives begins with them.
Every reader takes only tokens that keep what has been read viable, and it fails at the first
token that does not.
-/

namespace Asm65

/-!
# Readers that fail at the first token

A reader is held against the rules that say which tokens stand for which value.
-/

/-- The tokens begin something that the rules derive. -/
def Viable {α : Type} (D : List Token -> α -> Prop) (ts : List Token) : Prop :=
  exists us v, D (ts ++ us) v

/-- What a reader can say about the token it fails at, or about the end of the line. -/
inductive StatementError.Kind.FoundAt : Option Token -> StatementError.Kind -> Prop where
  | unexpected (t : Token) : FoundAt (some t) (.unexpectedToken t.text t.kind)
  | expected (wanted : String) (t : Token) :
      FoundAt (some t) (.expected wanted ("\"" ++ t.text ++ "\" (" ++ t.kind.text ++ ")"))
  | missing (wanted : String) : FoundAt none (.expected wanted "EOL")
  | label (name : String) : FoundAt (some (.label name)) (.labelNotAtLineStart name)
  | byte {n : UInt16} : 255 < n.toNat -> FoundAt (some (.number n)) (.byteExpected n)

/--
The failure is at the first token with which the tokens read so far are not viable any more, or
at the end of tokens that are viable but not complete.  The first of the tokens has number `k`.
-/
inductive FailsFirst {α : Type} (D : List Token -> α -> Prop) (k : Nat) :
    List Token -> Fault -> Prop where
  | token (before : List Token) {after : List Token} {t : Token} {kind : StatementError.Kind} :
      Viable D before -> ¬ Viable D (before ++ [t]) -> kind.FoundAt (some t) ->
        FailsFirst D k (before ++ t :: after) ⟨kind, k + before.length⟩
  | missing {ts : List Token} {kind : StatementError.Kind} :
      Viable D ts -> (forall v, ¬ D ts v) -> kind.FoundAt none ->
        FailsFirst D k ts ⟨kind, k + ts.length⟩

/--
The reader takes tokens that derive its result and stops where no other token can follow them, or
it fails at the first token that is not viable.
-/
inductive Predicts {α : Type} (D : List Token -> α -> Prop) (k : Nat) (ts : List Token) :
    Except Fault (α × Rest) -> Prop where
  | ok (before : List Token) {rest : List Token} {v : α} :
      ts = before ++ rest -> D before v ->
        (forall t after, rest = t :: after -> ¬ Viable D (before ++ [t])) ->
        Predicts D k ts (.ok (v, ⟨k + before.length, rest⟩))
  | error {f : Fault} : FailsFirst D k ts f -> Predicts D k ts (.error f)

namespace Predicts

variable {α β : Type} {D : List Token -> α -> Prop} {D' : List Token -> β -> Prop} {k : Nat}
  {ts : List Token}

/-- Nothing more can follow, and so nothing is read. -/
theorem done {v : α} (h : D [] v) (honly : forall us w, D us w -> us = []) :
    Predicts D k ts (.ok (v, ⟨k, ts⟩)) := by
  refine .ok [] rfl h ?_
  intro t after _ hviable
  rcases hviable with ⟨us, w, hw⟩
  cases honly _ w hw

/-- The failure is at the very first token. -/
theorem fails {kind : StatementError.Kind} (hviable : Viable D [])
    (hstop : forall us v, us.head? = ts.head? -> ¬ D us v)
    (hfound : kind.FoundAt ts.head?) : Predicts D k ts (.error ⟨kind, k⟩) := by
  apply Predicts.error
  cases ts with
  | nil => exact .missing hviable (fun v => hstop [] v rfl) hfound
  | cons t after =>
      refine .token [] hviable ?_ hfound
      intro h
      rcases h with ⟨us, v, hv⟩
      exact hstop (t :: us) v rfl hv

/--
A reader can be held against other rules, behind tokens that have been read before.  Only what
begins like its own tokens has to be the same by both rules.
-/
theorem transport {x : Except Fault (α × Rest)} (g : α -> β) (read : List Token)
    (h : Predicts D (k + read.length) ts x)
    (hsound : forall us v, D us v -> D' (read ++ us) (g v))
    (hcomplete : forall us w, us.head? = ts.head? -> D' (read ++ us) w -> exists v, D us v) :
    Predicts D' k (read ++ ts) (x.map fun result => (g result.1, result.2)) := by
  have hviable {us : List Token} (h : Viable D us) : Viable D' (read ++ us) := by
    rcases h with ⟨vs, v, hv⟩
    refine ⟨vs, g v, ?_⟩
    rw [List.append_assoc]
    exact hsound _ v hv
  have hstop {before after : List Token} {t : Token} (hts : ts = before ++ t :: after)
      (h : ¬ Viable D (before ++ [t])) : ¬ Viable D' (read ++ before ++ [t]) := by
    intro h'
    rcases h' with ⟨vs, w, hw⟩
    rw [List.append_assoc, List.append_assoc] at hw
    rcases hcomplete (before ++ ([t] ++ vs)) w (by rw [hts]; cases before <;> rfl) hw with
      ⟨v, hv⟩
    rw [<- List.append_assoc] at hv
    exact h ⟨vs, v, hv⟩
  have hnumber (us : List Token) : k + read.length + us.length = k + (read ++ us).length := by
    rw [List.length_append, Nat.add_assoc]
  cases h with
  | @ok before rest v hts hv hend =>
      rw [hnumber before]
      refine .ok (read ++ before) ?_ (hsound before v hv) ?_
      · rw [hts, List.append_assoc]
      · intro t after hrest
        rw [hrest] at hts
        exact hstop hts (hend t after hrest)
  | error hfails =>
      apply Predicts.error
      cases hfails with
      | @token before after t kind hbefore ht hfound =>
          rw [hnumber before, <- List.append_assoc]
          exact .token (read ++ before) (hviable hbefore) (hstop rfl ht) hfound
      | missing hts hincomplete hfound =>
          rw [hnumber ts]
          refine .missing (hviable hts) ?_ hfound
          intro w hw
          rcases hcomplete ts w rfl hw with ⟨v, hv⟩
          exact hincomplete v hv

/-- Other rules for the same values. -/
theorem within {E : List Token -> α -> Prop} {x : Except Fault (α × Rest)} (read : List Token)
    (h : Predicts D (k + read.length) ts x)
    (hsound : forall us v, D us v -> E (read ++ us) v)
    (hcomplete : forall us w, us.head? = ts.head? -> E (read ++ us) w -> exists v, D us v) :
    Predicts E k (read ++ ts) x := by
  have hsame := h.transport id read hsound hcomplete
  cases x with
  | error f => exact hsame
  | ok result => exact hsame

/-- Tokens that have been read before belong to the rule. -/
theorem behind {x : Except Fault (α × Rest)} (read : List Token)
    (h : Predicts (fun us => D (read ++ us)) (k + read.length) ts x) :
    Predicts D k (read ++ ts) x :=
  h.within read (fun _ _ hv => hv) fun _ w _ hw => ⟨w, hw⟩

theorem fails_expected (wanted : String) (hviable : Viable D [])
    (hstop : forall us v, us.head? = ts.head? -> ¬ D us v) :
    Predicts D k ts (.error (Rest.expected wanted ⟨k, ts⟩)) := by
  refine fails hviable hstop ?_
  cases ts with
  | nil => exact .missing wanted
  | cons t after => exact .expected wanted t

theorem fails_unexpected (hviable : Viable D [])
    (hstop : forall us v, us.head? = ts.head? -> ¬ D us v) :
    Predicts D k ts (.error (Rest.unexpected ⟨k, ts⟩)) := by
  cases ts with
  | nil => exact fails_expected "operand" hviable hstop
  | cons t after => exact fails hviable hstop (.unexpected t)

/-- Exactly one token can follow, and the reader asks for it. -/
theorem expect {t : Token} (wanted : String) {f : Rest -> Except Fault (α × Rest)}
    (hviable : Viable D []) (honly : forall us v, D us v -> exists rest, us = t :: rest)
    (hnext : forall rest, Predicts (fun us => D (t :: us)) (k + 1) rest (f ⟨k + 1, rest⟩)) :
    Predicts D k ts (Rest.expect t wanted ⟨k, ts⟩ >>= f) := by
  by_cases hts : ts.head? = some t
  · rcases List.head?_eq_some_iff.mp hts with ⟨rest, rfl⟩
    have hread : Rest.expect t wanted ⟨k, t :: rest⟩ = .ok ⟨k + 1, rest⟩ := if_pos rfl
    rw [hread]
    exact behind [t] (hnext rest)
  · have hread : Rest.expect t wanted ⟨k, ts⟩ = .error (Rest.expected wanted ⟨k, ts⟩) := by
      cases ts with
      | nil => rfl
      | cons u us => exact if_neg fun h => hts (congrArg some h)
    rw [hread]
    refine fails_expected wanted hviable ?_
    intro us v hhead hv
    rcases honly us v hv with ⟨rest, rfl⟩
    exact hts hhead.symm

/-- The token that the reader asks for is the last one. -/
theorem expect_last {t : Token} {v : α} (wanted : String) (h : D [t] v)
    (honly : forall us w, D us w -> us = [t]) :
    Predicts D k ts ((Rest.expect t wanted ⟨k, ts⟩).map fun r => (v, r)) := by
  have hnext (rest : List Token) :
      Predicts (fun us => D (t :: us)) (k + 1) rest (.ok (v, ⟨k + 1, rest⟩)) :=
    done h fun us w hw => List.tail_eq_of_cons_eq (honly _ w hw)
  have hmap : (Rest.expect t wanted ⟨k, ts⟩).map (fun r => (v, r)) =
      Rest.expect t wanted ⟨k, ts⟩ >>= fun r => .ok (v, r) :=
    (bind_pure_comp (fun r => (v, r)) (Rest.expect t wanted ⟨k, ts⟩)).symm
  rw [hmap]
  exact expect wanted ⟨[t], v, h⟩ (fun us w hw => ⟨[], honly us w hw⟩) hnext

theorem expect_two {t u : Token} {v : α} (wanted wanted' : String) (h : D [t, u] v)
    (honly : forall us w, D us w -> us = [t, u]) :
    Predicts D k ts (do
      let r <- Rest.expect t wanted ⟨k, ts⟩
      let r <- r.expect u wanted'
      return (v, r)) := by
  refine expect wanted ⟨_, v, h⟩ (fun us w hw => ⟨[u], honly us w hw⟩) ?_
  intro rest
  have hlast : Predicts (fun us => D (t :: us)) (k + 1) rest
      ((Rest.expect u wanted' ⟨k + 1, rest⟩).map fun r => (v, r)) :=
    expect_last wanted' h fun us w hw => List.tail_eq_of_cons_eq (honly _ w hw)
  exact (bind_pure_comp _ (Rest.expect u wanted' ⟨k + 1, rest⟩)).symm ▸ hlast

end Predicts

namespace Rest

open Grammar

/-!
# Values and directives
-/

/-- Each number is checked at its own token: it stands for a value, or it is not a byte. -/
structure Checks {α : Type} (item : Nat -> UInt16 -> Except Fault α)
    (Item : UInt16 -> α -> Prop) : Prop where
  inhabited : exists n v, Item n v
  checked (k : Nat) (n : UInt16) : (exists v, item k n = .ok v ∧ Item n v) ∨
    (item k n = .error ⟨.byteExpected n, k⟩ ∧ 255 < n.toNat ∧ forall v, ¬ Item n v)

theorem checks_wordAt : Checks wordAt Eq where
  inhabited := ⟨0, 0, rfl⟩
  checked _ n := Or.inl ⟨n, rfl, rfl⟩

theorem checks_byteAt : Checks byteAt IsByte where
  inhabited := ⟨0, 0, isByte_toUInt8 (by decide)⟩
  checked k n := by
    by_cases hbyte : n < 256
    · exact Or.inl ⟨n.toUInt8, if_pos hbyte, isByte_toUInt8 hbyte⟩
    · have hwide : 255 < n.toNat := isWide_iff.mpr hbyte
      refine Or.inr ⟨if_neg hbyte, hwide, ?_⟩
      intro b hb
      exact Nat.not_lt.mpr hb.left hwide

theorem predicts_valuesFrom {α : Type} {item : Nat -> UInt16 -> Except Fault α}
    {Item : UInt16 -> α -> Prop} (h : Checks item Item) (k : Nat) (ts : List Token) :
    Predicts (DerivesValues Item) k ts (valuesFrom item k ts) := by
  have hviable : Viable (DerivesValues Item) [] := by
    rcases h.inhabited with ⟨n, v, hv⟩
    exact ⟨[.number n], [v], .one hv⟩
  have hrejected {k : Nat} {n : UInt16} {ts : List Token} (hwide : 255 < n.toNat)
      (hn : forall v, ¬ Item n v) : Predicts (DerivesValues Item) k (.number n :: ts)
        (.error ⟨.byteExpected n, k⟩) := by
    refine .fails hviable ?_ (.byte hwide)
    intro us vs hhead hvs
    cases hvs with
    | one hv =>
        cases hhead
        exact hn _ hv
    | more hv hvs =>
        cases hhead
        exact hn _ hv
  fun_induction valuesFrom item k ts with
  | case1 k n ts ih =>
      rcases h.checked k n with ⟨v, hitem, hv⟩ | ⟨hitem, hwide, hn⟩
      · rw [hitem]
        have hmore : Predicts (DerivesValues Item) k (.number n :: .comma :: ts)
            ((valuesFrom item (k + 2) ts).map fun result => (v :: result.1, result.2)) := by
          refine ih.transport (fun vs => v :: vs) [.number n, .comma] ?_ ?_
          · intro us vs hvs
            exact .more hv hvs
          · intro us vs _ hvs
            cases hvs with
            | more _ hvs => exact ⟨_, hvs⟩
        exact (bind_pure_comp _ (valuesFrom item (k + 2) ts)).symm ▸ hmore
      · rw [hitem]
        exact hrejected hwide hn
  | case2 k n ts hcomma =>
      rcases h.checked k n with ⟨v, hitem, hv⟩ | ⟨hitem, hwide, hn⟩
      · rw [hitem]
        refine .ok [.number n] rfl (.one hv) ?_
        intro t after hts hviable
        rcases hviable with ⟨us, vs, hvs⟩
        cases hvs with
        | more _ _ => exact hcomma after hts
      · rw [hitem]
        exact hrejected hwide hn
  | case3 k ts hmore hone =>
      refine .fails_expected _ hviable ?_
      intro us vs hhead hvs
      cases hvs with
      | one _ =>
          rcases List.head?_eq_some_iff.mp hhead.symm with ⟨rest, hts⟩
          exact hone _ rest hts
      | more _ _ =>
          rcases List.head?_eq_some_iff.mp hhead.symm with ⟨rest, hts⟩
          exact hone _ rest hts

theorem predicts_number (k : Nat) (ts : List Token) :
    Predicts (fun us n => us = [.number n]) k ts (number ⟨k, ts⟩) := by
  unfold number
  split
  · next n rest heq =>
      change ts = .number n :: rest at heq
      refine .ok [.number n] heq rfl ?_
      intro t after _ hviable
      rcases hviable with ⟨us, n', hn'⟩
      cases hn'
  · next hother =>
      refine .fails_expected _ ⟨[.number 0], 0, rfl⟩ ?_
      intro us n hhead hn
      subst hn
      rcases List.head?_eq_some_iff.mp hhead.symm with ⟨rest, hts⟩
      exact hother n rest hts

/-- What follows the name of a directive is read by the rule for that name. -/
theorem predicts_named {α : Type} {D : List Token -> α -> Prop} {name : String} {k : Nat}
    {ts : List Token} {x : Except Fault (α × Rest)} (g : α -> Directive)
    (h : Predicts D (k + 1) ts x)
    (hrule : forall us d, DerivesDirective (.directive name :: us) d <->
      exists v, D us v ∧ g v = d) :
    Predicts DerivesDirective k (.directive name :: ts)
      (x.map fun result => (g result.1, result.2)) := by
  refine h.transport g [.directive name] ?_ ?_
  · intro us v hv
    exact (hrule us (g v)).mpr ⟨v, hv, rfl⟩
  · intro us d _ hd
    rcases (hrule us d).mp hd with ⟨v, hv, _⟩
    exact ⟨v, hv⟩

theorem predicts_directive (name : String) (k : Nat) (ts : List Token) :
    Predicts DerivesDirective k (.directive name :: ts) (directive name k ⟨k + 1, ts⟩) := by
  have hwords := predicts_valuesFrom checks_wordAt (k + 1) ts
  have hbytes := predicts_valuesFrom checks_byteAt (k + 1) ts
  unfold directive
  split
  · next hname =>
      subst hname
      exact predicts_named .data hwords (by simp [derivesDirective_iff])
  · next hdata =>
      split
      · next hname =>
          refine predicts_named .bytes hbytes ?_
          rcases hname with rfl | rfl
          · simp [derivesDirective_iff]
          · simp [derivesDirective_iff]
      · next hbyte =>
          split
          · next hname =>
              refine predicts_named .words hwords ?_
              rcases hname with rfl | rfl
              · simp [derivesDirective_iff]
              · simp [derivesDirective_iff]
          · next hword =>
              split
              · next hname =>
                  subst hname
                  exact predicts_named .origin (predicts_number (k + 1) ts)
                    (by simp [derivesDirective_iff])
              · next horigin =>
                  refine .fails_unexpected ⟨[.directive "ORG", .number 0], _, .origin⟩ ?_
                  intro us d hhead hd
                  rcases List.head?_eq_some_iff.mp hhead with ⟨rest, rfl⟩
                  simp [derivesDirective_iff, hdata, hbyte, hword, horigin] at hd

/-!
# Operands
-/

theorem predicts_indexed (m : Mnemonic) (k : Nat) (n : UInt16) (ts : List Token) :
    Predicts (fun us => DerivesOperand m k (.number n :: .comma :: us)) (k + 2) ts
      (indexed n ⟨k + 2, ts⟩) := by
  have hread {name : String} {operand : Operand} {rest : List Token}
      (h : UsesUp (indexed n ⟨k + 2, [.label name]⟩) operand) :
      Predicts (fun us => DerivesOperand m k (.number n :: .comma :: us)) (k + 2)
        (.label name :: rest) (.ok (operand, ⟨k + 3, rest⟩)) := by
    refine .ok [.label name] rfl (derives_indexed h) ?_
    intro t after _ hviable
    rcases hviable with ⟨us, w, hw⟩
    cases hw
  have hfails (hother : forall name rest, ts = .label name :: rest -> name ≠ "X" ∧ name ≠ "Y") :
      Predicts (fun us => DerivesOperand m k (.number n :: .comma :: us)) (k + 2) ts
        (.error (unexpected ⟨k + 2, ts⟩)) := by
    have hX : UsesUp (indexed n ⟨k + 2, [.label "X"]⟩) _ := ⟨k + 3, rfl⟩
    refine .fails_unexpected ⟨[.label "X"], _, derives_indexed hX⟩ ?_
    intro us w hhead hw
    cases hw <;> rcases List.head?_eq_some_iff.mp hhead.symm with ⟨rest, hts⟩ <;>
      simpa using hother _ rest hts
  unfold indexed
  split
  · next name rest heq =>
      change ts = .label name :: rest at heq
      subst heq
      split
      · next hname =>
          subst hname
          exact hread ⟨_, rfl⟩
      · next hx =>
          split
          · next hname =>
              subst hname
              exact hread ⟨_, rfl⟩
          · next hy =>
              refine hfails ?_
              intro name' rest' heq
              cases heq
              exact ⟨hx, hy⟩
  · next hlabel =>
      exact hfails fun name rest heq => (hlabel name rest heq).elim

theorem predicts_indirect (m : Mnemonic) (k : Nat) (n : UInt16) (ts : List Token) :
    Predicts (fun us => DerivesOperand m k (.lparen :: .number n :: us)) (k + 2) ts
      (indirect n ⟨k + 2, ts⟩) := by
  unfold indirect
  split
  · next hbyte =>
      have hX : DerivesOperand m k [.lparen, .number n, .comma, .label "X", .rparen]
          (.indirectX n.toUInt8) := .indirectX (isByte_toUInt8 hbyte)
      have hY : DerivesOperand m k [.lparen, .number n, .rparen, .comma, .label "Y"]
          (.indirectY n.toUInt8) := .indirectY (isByte_toUInt8 hbyte)
      split
      · next rest heq =>
          change ts = .comma :: rest at heq
          subst heq
          refine .behind [.comma] (.expect_two _ _ hX ?_)
          intro us w hw
          cases hw
          rfl
      · next rest heq =>
          change ts = .rparen :: rest at heq
          subst heq
          refine .behind [.rparen] (.expect_two _ _ hY ?_)
          intro us w hw
          cases hw with
          | indirectY _ => rfl
          | indirect hwide => exact (isWide_iff.mp hwide hbyte).elim
      · next hcomma hparen =>
          refine .fails_unexpected ⟨_, _, hX⟩ ?_
          intro us w hhead hw
          cases hw with
          | indirectX _ =>
              rcases List.head?_eq_some_iff.mp hhead.symm with ⟨rest, hts⟩
              exact hcomma rest hts
          | indirectY _ =>
              rcases List.head?_eq_some_iff.mp hhead.symm with ⟨rest, hts⟩
              exact hparen rest hts
          | indirect _ =>
              rcases List.head?_eq_some_iff.mp hhead.symm with ⟨rest, hts⟩
              exact hparen rest hts
  · next hwide =>
      refine .expect_last _ (.indirect (isWide_iff.mpr hwide)) ?_
      intro us w hw
      cases hw with
      | indirectX hbyte => exact (hwide (isByte_iff.mp hbyte).left).elim
      | indirectY hbyte => exact (hwide (isByte_iff.mp hbyte).left).elim
      | indirect _ => rfl

theorem predicts_operand (m : Mnemonic) (k : Nat) (ts : List Token) :
    Predicts (DerivesOperand m k) k ts (operand m ⟨k, ts⟩) := by
  have hzero : IsByte 0 0 := isByte_toUInt8 (by decide)
  unfold operand
  simp only
  split
  · refine .ok [] rfl .implied ?_
    intro t after h
    cases h
  · next n rest =>
      refine .behind [.hash] ?_
      by_cases hbyte : n < 256
      · have hb : byteAt (k + 1) n = .ok n.toUInt8 := if_pos hbyte
        rw [hb]
        refine .ok [.number n] rfl (.immediate (isByte_toUInt8 hbyte)) ?_
        intro t after _ hviable
        rcases hviable with ⟨us, w, hw⟩
        cases hw
      · have hb : byteAt (k + 1) n = .error ⟨.byteExpected n, k + 1⟩ := if_neg hbyte
        rw [hb]
        refine .fails ⟨[.number 0], _, .immediate hzero⟩ ?_
          (.byte (isWide_iff.mpr hbyte))
        intro us w hhead hw
        cases hw with
        | immediate hn =>
            cases hhead
            exact hbyte (isByte_iff.mp hn).left
  · next rest hnumber =>
      refine .behind [.hash] (.fails_expected _
        ⟨[.number 0], _, .immediate hzero⟩ ?_)
      intro us w hhead hw
      cases hw with
      | immediate _ =>
          rcases List.head?_eq_some_iff.mp hhead.symm with ⟨after, hrest⟩
          exact hnumber _ after hrest
  · next name rest =>
      have hend (t : Token) (after : List Token) (_ : rest = t :: after) :
          ¬ Viable (DerivesOperand m k) ([.label name] ++ [t]) := by
        intro hviable
        rcases hviable with ⟨us, w, hw⟩
        cases hw
      split
      · next hname =>
          subst hname
          exact .ok [.label "A"] rfl .accumulator hend
      · next hname =>
          split
          · next hjump =>
              exact .ok [.label name] rfl (.jump hname (isJump_iff.mp hjump)) hend
          · next hjump =>
              refine .ok [.label name] rfl (.branch hname ?_) hend
              exact fun hmem => hjump (isJump_iff.mpr hmem)
  · next n rest =>
      exact .behind [.number n, .comma] (predicts_indexed m k n rest)
  · next n rest hcomma =>
      refine .ok [.number n] rfl (derives_direct m k n) ?_
      intro t after hrest hviable
      rcases hviable with ⟨us, w, hw⟩
      -- only a comma goes on behind a number
      have ht : t = .comma := by
        cases hw <;> rfl
      exact hcomma after (ht ▸ hrest)
  · next n rest =>
      exact .behind [.lparen, .number n] (predicts_indirect m k n rest)
  · next name rest =>
      refine .behind [.lparen, .label name] (.expect_last _ .indirectLabel ?_)
      intro us w hw
      cases hw
      rfl
  · next rest hnumber hlabel =>
      refine .behind [.lparen] (.fails_unexpected ⟨[.label "A", .rparen], _, .indirectLabel⟩ ?_)
      intro us w hhead hw
      cases hw <;> rcases List.head?_eq_some_iff.mp hhead.symm with ⟨after, hrest⟩
      · exact hnumber _ after hrest
      · exact hnumber _ after hrest
      · exact hnumber _ after hrest
      · exact hlabel _ after hrest
  · next hnil _ hhash hlabel _ hnumber _ _ hparen =>
      refine .fails_unexpected ⟨[], _, .implied⟩ ?_
      intro us w hhead hw
      cases hw with
      | implied => exact hnil (List.head?_eq_none_iff.mp hhead.symm)
      | immediate _ =>
          rcases List.head?_eq_some_iff.mp hhead.symm with ⟨rest, hts⟩
          exact hhash rest hts
      | accumulator | jump _ _ | branch _ _ =>
          rcases List.head?_eq_some_iff.mp hhead.symm with ⟨rest, hts⟩
          exact hlabel _ rest hts
      | offset _ _ | zeroPage _ _ | absolute _ | zeroPageX _ | zeroPageY _ | absoluteX _
      | absoluteY _ =>
          rcases List.head?_eq_some_iff.mp hhead.symm with ⟨rest, hts⟩
          exact hnumber _ rest hts
      | indirectX _ | indirectY _ | indirect _ | indirectLabel =>
          rcases List.head?_eq_some_iff.mp hhead.symm with ⟨rest, hts⟩
          exact hparen rest hts

end Rest
end Asm65
