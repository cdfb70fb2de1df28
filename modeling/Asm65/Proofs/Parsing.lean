import Asm65.Proofs.Grammar
import Asm65.Proofs.Outcome
import Mathlib.Logic.Basic

/-!
# Reading and the grammar

A reader takes as many tokens as it can and leaves the rest to what comes next.  A line has
to be used up, so only those readings count that leave nothing.  For each reader, these are
exactly the derivations of the grammar.
-/

namespace Asm65
namespace Rest

open Grammar

/-- The reading yields `v` and leaves no token. -/
def UsesUp {α : Type} (reading : Except Fault (α × Rest)) (v : α) : Prop :=
  exists k, reading = .ok (v, ⟨k, []⟩)

theorem usesUp_ok_iff {α : Type} {v w : α} {k : Nat} {ts : List Token} :
    UsesUp (.ok (w, ⟨k, ts⟩)) v <-> w = v ∧ ts = [] := by
  constructor
  · intro h
    rcases h with ⟨k', hok⟩
    cases hok
    exact ⟨rfl, rfl⟩
  · intro h
    rcases h with ⟨rfl, rfl⟩
    exact ⟨k, rfl⟩

theorem not_usesUp_error {α : Type} {v : α} {e : Fault} :
    ¬ UsesUp (.error e : Except Fault (α × Rest)) v := by
  intro h
  rcases h with ⟨k, hok⟩
  cases hok

theorem usesUp_map_iff {α β : Type} (f : α -> β) {reading : Except Fault (α × Rest)}
    {w : β} :
    UsesUp (reading.map fun result => (f result.1, result.2)) w <->
      exists v, UsesUp reading v ∧ f v = w := by
  cases reading with
  | error e =>
      constructor
      · intro h
        exact (not_usesUp_error h).elim
      · intro h
        rcases h with ⟨v, hv, _⟩
        exact (not_usesUp_error hv).elim
  | ok result =>
      rcases result with ⟨v, k, ts⟩
      change UsesUp (.ok (f v, ⟨k, ts⟩)) w <-> _
      simp only [usesUp_ok_iff]
      constructor
      · intro h
        exact ⟨v, ⟨rfl, h.right⟩, h.left⟩
      · intro h
        rcases h with ⟨_, ⟨rfl, hnil⟩, hw⟩
        exact ⟨hw, hnil⟩

theorem usesUp_bind_iff {α β : Type} {x : Except Fault α}
    {f : α -> Except Fault (β × Rest)} {w : β} :
    UsesUp (x >>= f) w <-> exists a, x = .ok a ∧ UsesUp (f a) w := by
  unfold UsesUp
  simp only [bind_eq_ok_iff]
  constructor
  · intro h
    rcases h with ⟨k, a, ha, hf⟩
    exact ⟨a, ha, k, hf⟩
  · intro h
    rcases h with ⟨a, ha, k, hf⟩
    exact ⟨k, a, ha, hf⟩

/-!
# Values
-/

theorem byteAt_eq_ok_iff (k : Nat) (n : UInt16) (b : UInt8) :
    byteAt k n = .ok b <-> IsByte n b := by
  unfold byteAt
  rw [isByte_iff]
  split
  · next h => simp [h]
  · next h => simp [h]

theorem wordAt_eq_ok_iff (k : Nat) (n v : UInt16) : wordAt k n = .ok v <-> n = v := by
  simp [wordAt]

theorem usesUp_valuesFrom_iff {α : Type} {item : Nat -> UInt16 -> Except Fault α}
    {Item : UInt16 -> α -> Prop} (hitem : forall k n v, item k n = .ok v <-> Item n v)
    {k : Nat} {ts : List Token} {vs : List α} :
    UsesUp (valuesFrom item k ts) vs <-> DerivesValues Item ts vs := by
  fun_induction valuesFrom item k ts generalizing vs with
  | case1 k n ts ih =>
      simp only [usesUp_bind_iff, hitem]
      constructor
      · intro h
        rcases h with ⟨v, hv, ⟨others, k', rest⟩, hothers, hresult⟩
        rcases usesUp_ok_iff.mp hresult with ⟨rfl, rfl⟩
        exact .more hv (ih.mp ⟨k', hothers⟩)
      · intro h
        cases h with
        | more hv hvs =>
            rcases ih.mpr hvs with ⟨k', hothers⟩
            exact ⟨_, hv, _, hothers, usesUp_ok_iff.mpr ⟨rfl, rfl⟩⟩
  | case2 k n ts hcomma =>
      simp only [usesUp_bind_iff, hitem]
      constructor
      · intro h
        rcases h with ⟨v, hv, hresult⟩
        rcases usesUp_ok_iff.mp hresult with ⟨rfl, rfl⟩
        exact .one hv
      · intro h
        cases h with
        | one hv => exact ⟨_, hv, usesUp_ok_iff.mpr ⟨rfl, rfl⟩⟩
        | more hv hvs => exact (hcomma _ rfl).elim
  | case3 k ts hmore hone =>
      constructor
      · intro h
        exact (not_usesUp_error h).elim
      · intro h
        cases h with
        | one hv => exact (hone _ _ rfl).elim
        | more hv hvs => exact (hmore _ _ rfl).elim

theorem usesUp_words_iff {k : Nat} {ts : List Token} {vs : List UInt16} :
    UsesUp (values wordAt ⟨k, ts⟩) vs <-> DerivesValues Eq ts vs :=
  usesUp_valuesFrom_iff wordAt_eq_ok_iff

theorem usesUp_bytes_iff {k : Nat} {ts : List Token} {bs : List UInt8} :
    UsesUp (values byteAt ⟨k, ts⟩) bs <-> DerivesValues IsByte ts bs :=
  usesUp_valuesFrom_iff byteAt_eq_ok_iff

theorem usesUp_number_iff {k : Nat} {ts : List Token} {n : UInt16} :
    UsesUp (number ⟨k, ts⟩) n <-> ts = [.number n] := by
  unfold number
  split
  · next m rest heq =>
      change ts = .number m :: rest at heq
      subst heq
      rw [usesUp_ok_iff]
      simp
  · next hother =>
      constructor
      · intro h
        exact (not_usesUp_error h).elim
      · intro h
        exact (hother n [] h).elim

/-!
# Directives
-/

/-- What a directive derives from, by its name. -/
theorem derivesDirective_iff {name : String} {ts : List Token} {d : Directive} :
    DerivesDirective (.directive name :: ts) d <->
      (name = "DB" ∧ exists vs, DerivesValues Eq ts vs ∧ .data vs = d) ∨
      ((name = "BYTE" ∨ name = "BYTES") ∧ exists bs, DerivesValues IsByte ts bs ∧ .bytes bs = d) ∨
      ((name = "WORD" ∨ name = "WORDS") ∧ exists vs, DerivesValues Eq ts vs ∧ .words vs = d) ∨
      (name = "ORG" ∧ exists n, ts = [.number n] ∧ .origin n = d) := by
  constructor
  · intro h
    cases h with
    | data hvs => exact Or.inl ⟨rfl, _, hvs, rfl⟩
    | byte hbs => exact Or.inr (Or.inl ⟨Or.inl rfl, _, hbs, rfl⟩)
    | bytes hbs => exact Or.inr (Or.inl ⟨Or.inr rfl, _, hbs, rfl⟩)
    | word hvs => exact Or.inr (Or.inr (Or.inl ⟨Or.inl rfl, _, hvs, rfl⟩))
    | words hvs => exact Or.inr (Or.inr (Or.inl ⟨Or.inr rfl, _, hvs, rfl⟩))
    | origin => exact Or.inr (Or.inr (Or.inr ⟨rfl, _, rfl, rfl⟩))
  · intro h
    rcases h with ⟨rfl, vs, hvs, rfl⟩ | ⟨hname, bs, hbs, rfl⟩ | ⟨hname, vs, hvs, rfl⟩ |
      ⟨rfl, n, rfl, rfl⟩
    · exact .data hvs
    · rcases hname with rfl | rfl
      · exact .byte hbs
      · exact .bytes hbs
    · rcases hname with rfl | rfl
      · exact .word hvs
      · exact .words hvs
    · exact .origin

theorem usesUp_directive_iff {name : String} {k k' : Nat} {ts : List Token} {d : Directive} :
    UsesUp (directive name k ⟨k', ts⟩) d <->
      DerivesDirective (.directive name :: ts) d := by
  rw [derivesDirective_iff]
  unfold directive
  split
  · next hname =>
      subst hname
      simp [usesUp_map_iff, usesUp_words_iff]
  · next hdata =>
      split
      · next hname =>
          rcases hname with rfl | rfl
          · simp [usesUp_map_iff, usesUp_bytes_iff]
          · simp [usesUp_map_iff, usesUp_bytes_iff]
      · next hbytes =>
          split
          · next hname =>
              rcases hname with rfl | rfl
              · simp [usesUp_map_iff, usesUp_words_iff]
              · simp [usesUp_map_iff, usesUp_words_iff]
          · next hwords =>
              split
              · next hname =>
                  subst hname
                  simp [usesUp_map_iff, usesUp_number_iff]
              · next horigin =>
                  simp [not_usesUp_error, hdata, hbytes, hwords, horigin]

/-!
# Operands
-/

theorem expect_eq_ok_iff {t : Token} {wanted : String} {k : Nat} {ts : List Token} {r : Rest} :
    expect t wanted ⟨k, ts⟩ = .ok r <-> exists rest, ts = t :: rest ∧ r = ⟨k + 1, rest⟩ := by
  unfold expect
  cases ts with
  | nil =>
      simp
  | cons u us =>
      by_cases h : u = t
      · simp [h, eq_comm]
      · simp [h]

theorem usesUp_expect_iff {α : Type} {t : Token} {wanted : String} {k : Nat}
    {ts : List Token} {f : Rest -> Except Fault (α × Rest)} {v : α} :
    UsesUp (expect t wanted ⟨k, ts⟩ >>= f) v <->
      exists rest, ts = t :: rest ∧ UsesUp (f ⟨k + 1, rest⟩) v := by
  rw [usesUp_bind_iff]
  constructor
  · intro h
    rcases h with ⟨r, hr, hf⟩
    rcases expect_eq_ok_iff.mp hr with ⟨rest, hts, rfl⟩
    exact ⟨rest, hts, hf⟩
  · intro h
    rcases h with ⟨rest, hts, hf⟩
    exact ⟨_, expect_eq_ok_iff.mpr ⟨rest, hts, rfl⟩, hf⟩

theorem derives_direct (m : Mnemonic) (k : Nat) (n : UInt16) :
    DerivesOperand m k [.number n] (direct m n) := by
  unfold direct
  split
  · next hbyte =>
      split
      · next hbranch =>
          exact .offset (isByte_toUInt8 hbyte) (isBranch_iff.mp hbranch)
      · next hbranch =>
          exact .zeroPage (isByte_toUInt8 hbyte) (fun h => hbranch (isBranch_iff.mpr h))
  · next hwide =>
      exact .absolute (isWide_iff.mpr hwide)

theorem derives_indexed {m : Mnemonic} {k k' : Nat} {n : UInt16} {ts : List Token}
    {operand : Operand} (h : UsesUp (indexed n ⟨k', ts⟩) operand) :
    DerivesOperand m k (.number n :: .comma :: ts) operand := by
  unfold indexed at h
  split at h
  · next name rest heq =>
      change ts = .label name :: rest at heq
      subst heq
      split at h
      · next hname =>
          rcases usesUp_ok_iff.mp h with ⟨rfl, rfl⟩
          subst hname
          split
          · next hbyte => exact .zeroPageX (isByte_toUInt8 hbyte)
          · next hwide => exact .absoluteX (isWide_iff.mpr hwide)
      · split at h
        · next hname =>
            rcases usesUp_ok_iff.mp h with ⟨rfl, rfl⟩
            subst hname
            split
            · next hbyte => exact .zeroPageY (isByte_toUInt8 hbyte)
            · next hwide => exact .absoluteY (isWide_iff.mpr hwide)
        · exact (not_usesUp_error h).elim
  · exact (not_usesUp_error h).elim

theorem derives_indirect {m : Mnemonic} {k k' : Nat} {n : UInt16} {ts : List Token}
    {operand : Operand} (h : UsesUp (indirect n ⟨k', ts⟩) operand) :
    DerivesOperand m k (.lparen :: .number n :: ts) operand := by
  unfold indirect at h
  split at h
  · next hbyte =>
      split at h
      · next rest heq =>
          change ts = .comma :: rest at heq
          rcases usesUp_expect_iff.mp h with ⟨us, rfl, hrest⟩
          rcases usesUp_expect_iff.mp hrest with ⟨vs, rfl, hresult⟩
          rcases usesUp_ok_iff.mp hresult with ⟨rfl, rfl⟩
          subst heq
          exact .indirectX (isByte_toUInt8 hbyte)
      · next rest heq =>
          change ts = .rparen :: rest at heq
          rcases usesUp_expect_iff.mp h with ⟨us, rfl, hrest⟩
          rcases usesUp_expect_iff.mp hrest with ⟨vs, rfl, hresult⟩
          rcases usesUp_ok_iff.mp hresult with ⟨rfl, rfl⟩
          subst heq
          exact .indirectY (isByte_toUInt8 hbyte)
      · exact (not_usesUp_error h).elim
  · next hwide =>
      rcases h with ⟨k'', h⟩
      rcases map_eq_ok_iff.mp h with ⟨r, hr, hresult⟩
      rcases expect_eq_ok_iff.mp hr with ⟨rest, rfl, rfl⟩
      cases hresult
      exact .indirect (isWide_iff.mpr hwide)

theorem derives_operand {m : Mnemonic} {k : Nat} {ts : List Token} {op : Operand}
    (h : UsesUp (operand m ⟨k, ts⟩) op) : DerivesOperand m k ts op := by
  unfold operand at h
  simp only at h
  split at h
  · rcases usesUp_ok_iff.mp h with ⟨rfl, _⟩
    exact .implied
  · next n rest =>
      rcases h with ⟨k', h⟩
      rcases map_eq_ok_iff.mp h with ⟨b, hb, hresult⟩
      cases hresult
      exact .immediate ((byteAt_eq_ok_iff _ _ _).mp hb)
  · exact (not_usesUp_error h).elim
  · next name rest =>
      split at h
      · next hname =>
          rcases usesUp_ok_iff.mp h with ⟨rfl, rfl⟩
          subst hname
          exact .accumulator
      · next hname =>
          split at h
          · next hjump =>
              rcases usesUp_ok_iff.mp h with ⟨rfl, rfl⟩
              exact .jump hname (isJump_iff.mp hjump)
          · next hjump =>
              rcases usesUp_ok_iff.mp h with ⟨rfl, rfl⟩
              exact .branch hname (fun hmem => hjump (isJump_iff.mpr hmem))
  · exact derives_indexed h
  · next n rest _ =>
      rcases usesUp_ok_iff.mp h with ⟨rfl, rfl⟩
      exact derives_direct m k n
  · exact derives_indirect h
  · next name rest =>
      rcases h with ⟨k', h⟩
      rcases map_eq_ok_iff.mp h with ⟨r, hr, hresult⟩
      rcases expect_eq_ok_iff.mp hr with ⟨us, rfl, rfl⟩
      cases hresult
      exact .indirectLabel
  · exact (not_usesUp_error h).elim
  · exact (not_usesUp_error h).elim

theorem usesUp_operand {m : Mnemonic} {k : Nat} {ts : List Token} {op : Operand}
    (h : DerivesOperand m k ts op) : UsesUp (operand m ⟨k, ts⟩) op := by
  cases h with
  | implied =>
      exact ⟨_, rfl⟩
  | immediate hbyte =>
      exact ⟨_, map_eq_ok_iff.mpr ⟨_, (byteAt_eq_ok_iff _ _ _).mpr hbyte, rfl⟩⟩
  | accumulator =>
      exact ⟨_, rfl⟩
  | jump hname hjump =>
      simp [operand, hname, isJump_iff.mpr hjump, usesUp_ok_iff]
  | branch hname hbranch =>
      have hjump : ¬ m.isJump = true := fun h => hbranch (isJump_iff.mp h)
      simp [operand, hname, hjump, usesUp_ok_iff]
  | offset hbyte hbranch =>
      rcases isByte_iff.mp hbyte with ⟨hlt, rfl⟩
      simp [operand, direct, hlt, isBranch_iff.mpr hbranch, usesUp_ok_iff]
  | zeroPage hbyte hother =>
      rcases isByte_iff.mp hbyte with ⟨hlt, rfl⟩
      have hbranch : ¬ m.isBranch = true := fun h => hother (isBranch_iff.mp h)
      simp [operand, direct, hlt, hbranch, usesUp_ok_iff]
  | absolute hwide =>
      simp [operand, direct, isWide_iff.mp hwide, usesUp_ok_iff]
  | zeroPageX hbyte =>
      rcases isByte_iff.mp hbyte with ⟨hlt, rfl⟩
      simp [operand, indexed, hlt, usesUp_ok_iff]
  | zeroPageY hbyte =>
      rcases isByte_iff.mp hbyte with ⟨hlt, rfl⟩
      simp [operand, indexed, hlt, usesUp_ok_iff]
  | absoluteX hwide =>
      simp [operand, indexed, isWide_iff.mp hwide, usesUp_ok_iff]
  | absoluteY hwide =>
      simp [operand, indexed, isWide_iff.mp hwide, usesUp_ok_iff]
  | indirectX hbyte =>
      rcases isByte_iff.mp hbyte with ⟨hlt, rfl⟩
      simp only [operand, indirect, if_pos hlt]
      exact ⟨_, rfl⟩
  | indirectY hbyte =>
      rcases isByte_iff.mp hbyte with ⟨hlt, rfl⟩
      simp only [operand, indirect, if_pos hlt]
      exact ⟨_, rfl⟩
  | indirect hwide =>
      simp only [operand, indirect, if_neg (isWide_iff.mp hwide)]
      exact ⟨_, rfl⟩
  | indirectLabel =>
      exact ⟨_, rfl⟩

/-!
# Lines
-/

/-- The opcode is determined by the mnemonic and the operand. -/
theorem of?_eq_some_iff {m : Mnemonic} {op : Operand} {i : Instruction} :
    Instruction.of? m op = some i <-> i.mnemonic = m ∧ i.operand = op := by
  rcases i with ⟨m', op', opcode, hencoded⟩
  unfold Instruction.of?
  constructor
  · intro h
    split at h
    · cases h
      exact ⟨rfl, rfl⟩
    · cases h
  · intro h
    rcases h with ⟨rfl, rfl⟩
    split
    · next opcode' hfound =>
        rw [hencoded] at hfound
        cases hfound
        rfl
    · next hfound =>
        rw [hencoded] at hfound
        cases hfound

theorem usesUp_instruction_iff {m : Mnemonic} {k : Nat} {ts : List Token} {i : Instruction} :
    UsesUp (instruction m ⟨k, ts⟩) i <->
      i.mnemonic = m ∧ DerivesOperand m k ts i.operand := by
  unfold instruction
  rw [usesUp_bind_iff]
  constructor
  · intro h
    rcases h with ⟨⟨op, k', rest⟩, hoperand, hlookup⟩
    simp only at hlookup
    split at hlookup
    · next j hj =>
        rcases usesUp_ok_iff.mp hlookup with ⟨rfl, rfl⟩
        rcases of?_eq_some_iff.mp hj with ⟨hm, rfl⟩
        exact ⟨hm, derives_operand ⟨k', hoperand⟩⟩
    · exact (not_usesUp_error hlookup).elim
  · intro h
    rcases usesUp_operand h.right with ⟨k', hoperand⟩
    have hlookup := of?_eq_some_iff.mpr ⟨h.left, rfl⟩
    refine ⟨_, hoperand, ?_⟩
    simp only [hlookup]
    exact usesUp_ok_iff.mpr ⟨rfl, rfl⟩

theorem derivesNucleus_mnemonic_iff {k : Nat} {m : Mnemonic} {ts : List Token} {n : Nucleus} :
    DerivesNucleus k (.mnemonic m :: ts) n <->
      exists i : Instruction, (i.mnemonic = m ∧ DerivesOperand m (k + 1) ts i.operand) ∧
        .instruction i = n := by
  constructor
  · intro h
    cases h with
    | directive hd => cases hd
    | instruction hencoded hoperand => exact ⟨_, ⟨rfl, hoperand⟩, rfl⟩
  · intro h
    rcases h with ⟨⟨m', op, opcode, hencoded⟩, ⟨hm, hoperand⟩, rfl⟩
    change m' = m at hm
    subst hm
    exact .instruction hencoded hoperand

theorem derivesNucleus_directive_iff {k : Nat} {name : String} {ts : List Token}
    {n : Nucleus} :
    DerivesNucleus k (.directive name :: ts) n <->
      exists d, DerivesDirective (.directive name :: ts) d ∧ .directive d = n := by
  constructor
  · intro h
    cases h with
    | directive hd => exact ⟨_, hd, rfl⟩
  · intro h
    rcases h with ⟨d, hd, rfl⟩
    exact .directive hd

theorem derivesNucleus_head {k : Nat} {ts : List Token} {n : Nucleus}
    (h : DerivesNucleus k ts n) :
    exists t rest, ts = t :: rest ∧
      ((exists name, t = .directive name) ∨ (exists m, t = .mnemonic m)) := by
  cases h with
  | directive hd =>
      cases hd <;> exact ⟨_, _, rfl, Or.inl ⟨_, rfl⟩⟩
  | instruction hencoded hoperand =>
      exact ⟨_, _, rfl, Or.inr ⟨_, rfl⟩⟩

/-- The nucleus of a line, if there is one. -/
def DerivesRest (k : Nat) (ts : List Token) (nucleus? : Option Nucleus) : Prop :=
  (ts = [] ∧ nucleus? = none) ∨ exists n, DerivesNucleus k ts n ∧ some n = nucleus?

theorem derivesRest_cons_iff {k : Nat} {t : Token} {ts : List Token}
    {nucleus? : Option Nucleus} :
    DerivesRest k (t :: ts) nucleus? <->
      exists n, DerivesNucleus k (t :: ts) n ∧ some n = nucleus? := by
  simp [DerivesRest]

theorem not_derivesRest {k : Nat} {t : Token} {ts : List Token} {nucleus? : Option Nucleus}
    (hdirective : forall name, t ≠ .directive name) (hmnemonic : forall m, t ≠ .mnemonic m) :
    ¬ DerivesRest k (t :: ts) nucleus? := by
  rw [derivesRest_cons_iff]
  intro h
  rcases h with ⟨n, hn, _⟩
  rcases derivesNucleus_head hn with ⟨t', rest, heq, hkind⟩
  cases heq
  rcases hkind with ⟨name, hname⟩ | ⟨m, hm⟩
  · exact hdirective name hname
  · exact hmnemonic m hm

theorem usesUp_nucleus_iff {k : Nat} {ts : List Token} {nucleus? : Option Nucleus} :
    UsesUp (nucleus ⟨k, ts⟩) nucleus? <-> DerivesRest k ts nucleus? := by
  cases ts with
  | nil =>
      constructor
      · intro h
        rcases usesUp_ok_iff.mp h with ⟨hnone, hnil⟩
        exact Or.inl ⟨hnil, hnone.symm⟩
      · intro h
        rcases h with ⟨_, hnone⟩ | ⟨n, hn, _⟩
        · exact usesUp_ok_iff.mpr ⟨hnone.symm, rfl⟩
        · rcases derivesNucleus_head hn with ⟨t, rest, heq, _⟩
          cases heq
  | cons t ts =>
      cases t with
      | directive name =>
          rw [derivesRest_cons_iff]
          have hread : UsesUp (nucleus ⟨k, .directive name :: ts⟩) nucleus? <->
              exists d, UsesUp (directive name k ⟨k + 1, ts⟩) d ∧
                some (.directive d) = nucleus? :=
            usesUp_map_iff fun d => some (Nucleus.directive d)
          simp only [hread, usesUp_directive_iff, derivesNucleus_directive_iff,
            exists_exists_and_eq_and]
      | mnemonic m =>
          rw [derivesRest_cons_iff]
          have hread : UsesUp (nucleus ⟨k, .mnemonic m :: ts⟩) nucleus? <->
              exists i, UsesUp (instruction m ⟨k + 1, ts⟩) i ∧
                some (.instruction i) = nucleus? :=
            usesUp_map_iff fun i => some (Nucleus.instruction i)
          simp only [hread, usesUp_instruction_iff, derivesNucleus_mnemonic_iff,
            exists_exists_and_eq_and]
      | _ =>
          -- no other token begins a nucleus, and the reader fails at it
          refine iff_of_false not_usesUp_error (not_derivesRest ?_ ?_)
          · intro name h
            cases h
          · intro m h
            cases h

theorem expectEnd_eq_ok_iff {r : Rest} {u : Unit} :
    r.expectEnd = .ok u <-> r.tokens = [] := by
  rcases r with ⟨k, ts⟩
  cases ts with
  | nil => simp [expectEnd]
  | cons t ts => simp [expectEnd]

theorem definition_label {k : Nat} {name : String} {ts : List Token}
    {result : Option LabelRef × Rest} :
    definition ⟨k, .label name :: ts⟩ = .ok result <->
      exists rest, ts = .colon :: rest ∧ (some ⟨name, k⟩, ⟨k + 2, rest⟩) = result := by
  have hmap : definition ⟨k, .label name :: ts⟩ =
      (expectMark .colon ⟨k + 1, ts⟩).map fun r => (some ⟨name, k⟩, r) := rfl
  rw [hmap, map_eq_ok_iff]
  constructor
  · intro h
    rcases h with ⟨r, hr, hresult⟩
    rcases expect_eq_ok_iff.mp hr with ⟨rest, hts, rfl⟩
    exact ⟨rest, hts, hresult⟩
  · intro h
    rcases h with ⟨rest, hts, hresult⟩
    exact ⟨_, expect_eq_ok_iff.mpr ⟨rest, hts, rfl⟩, hresult⟩

theorem definition_other {r : Rest} (h : forall name ts, r.tokens ≠ .label name :: ts) :
    r.definition = .ok (none, r) := by
  unfold definition
  split
  · next name ts heq =>
      exact (h name ts heq).elim
  · rfl

end Rest

namespace Statement

open Grammar

theorem ofTokens_eq_ok_iff {line : Nat} {ts : List Token} {st : Statement} :
    ofTokens line ts = .ok st <->
      exists k rest, Rest.definition ⟨1, ts⟩ = .ok (st.label?, ⟨k, rest⟩) ∧
        Rest.DerivesRest k rest st.nucleus? ∧ st.line = line := by
  unfold ofTokens
  simp only [bind_eq_ok_iff, Rest.expectEnd_eq_ok_iff, <- Rest.usesUp_nucleus_iff]
  constructor
  · intro h
    rcases h with ⟨⟨label?, ⟨k, rest⟩⟩, hlabel, ⟨nucleus?, ⟨k', left⟩⟩, hnucleus, _, hend, hst⟩
    change left = [] at hend
    subst hend
    cases hst
    exact ⟨k, rest, hlabel, ⟨k', hnucleus⟩, rfl⟩
  · intro h
    rcases h with ⟨k, rest, hlabel, ⟨k', hnucleus⟩, rfl⟩
    exact ⟨_, hlabel, _, hnucleus, (), rfl, rfl⟩

theorem derivesLine_of_ofTokens {line : Nat} {ts : List Token} {st : Statement}
    (h : ofTokens line ts = .ok st) : DerivesLine ts st.label? st.nucleus? := by
  rcases ofTokens_eq_ok_iff.mp h with ⟨k, rest, hdefinition, hrest, _⟩
  by_cases hlabel : exists name us, ts = .label name :: us
  · rcases hlabel with ⟨name, us, rfl⟩
    rcases Rest.definition_label.mp hdefinition with ⟨left, rfl, heq⟩
    injection heq with hname hleft
    cases hleft
    rw [<- hname]
    rcases hrest with ⟨rfl, hnone⟩ | ⟨n, hn, hsome⟩
    · rw [hnone]
      exact .label
    · rw [<- hsome]
      exact .labelled hn
  · rw [Rest.definition_other (fun name us heq => hlabel ⟨name, us, heq⟩)] at hdefinition
    injection hdefinition with heq
    injection heq with hnone hsame
    cases hsame
    rw [<- hnone]
    rcases hrest with ⟨rfl, hnil⟩ | ⟨n, hn, hsome⟩
    · rw [hnil]
      exact .empty
    · rw [<- hsome]
      exact .bare hn

theorem ofTokens_of_derivesLine {ts : List Token} {st : Statement}
    (h : DerivesLine ts st.label? st.nucleus?) : ofTokens st.line ts = .ok st := by
  apply ofTokens_eq_ok_iff.mpr
  rcases st with ⟨line, label?, nucleus?⟩
  cases h with
  | empty =>
      exact ⟨1, [], rfl, Or.inl ⟨rfl, rfl⟩, rfl⟩
  | label =>
      exact ⟨3, [], Rest.definition_label.mpr ⟨[], rfl, rfl⟩, Or.inl ⟨rfl, rfl⟩, rfl⟩
  | labelled hn =>
      exact ⟨3, _, Rest.definition_label.mpr ⟨_, rfl, rfl⟩, Or.inr ⟨_, hn, rfl⟩, rfl⟩
  | bare hn =>
      have hother : forall name us, ts ≠ .label name :: us := by
        intro name us heq
        rcases Rest.derivesNucleus_head hn with ⟨t, rest, hts, hkind⟩
        rw [heq] at hts
        cases hts
        rcases hkind with ⟨_, hd⟩ | ⟨_, hm⟩
        · cases hd
        · cases hm
      exact ⟨1, ts, Rest.definition_other hother, Or.inr ⟨_, hn, rfl⟩, rfl⟩

theorem ofLine_eq_ok_iff (line : TokenLine) (st : Statement) :
    ofLine line = .ok st <->
      st.line = line.number ∧ DerivesLine line.tokens st.label? st.nucleus? := by
  unfold ofLine
  rw [mapError_eq_ok_iff]
  constructor
  · intro h
    rcases ofTokens_eq_ok_iff.mp h with ⟨_, _, _, _, hline⟩
    exact ⟨hline, derivesLine_of_ofTokens h⟩
  · intro h
    rw [<- h.left]
    exact ofTokens_of_derivesLine h.right

end Statement
end Asm65
