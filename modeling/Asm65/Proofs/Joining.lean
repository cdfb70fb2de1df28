import Asm65.Proofs.LongestMatch

/-!
# Texts joined at a space

Two texts with a space between them are read one after the other, whatever characters they
hold.  A failure in the first text is not touched by what follows it.  A failure in the second
one keeps its kind and moves by the bytes in front of the second text: these can be counted
because a text that has been read to its end holds ASCII characters only.
-/

namespace Asm65
namespace TokenLine

/-- Every character of a text that can be read takes a single byte. -/
theorem utf8ByteSize_of_ofText {number : Nat} {s : String} {l : TokenLine}
    (h : ofText number s = .ok l) : s.utf8ByteSize = s.toList.length := by
  rcases ofText_eq_ok_iff_cuts.mp h with ⟨_, cut, hcut, _⟩
  have hchars : s.toList = cut.chars := by
    rw [hcut.eq_append, List.append_nil]
  have hascii : forall c, c ∈ s.toList -> c.toNat < 128 := by
    rw [hchars]
    exact fun c hc => hcut.ascii hc
  rw [<- Text.utf8ByteSize_of_ascii hascii, String.ofList_toList]

theorem toList_append_singleton (s t : String) (w : Char) :
    (s ++ String.singleton w ++ t).toList = s.toList ++ w :: t.toList := by
  rw [String.toList_append, String.toList_append, String.toList_singleton, List.append_assoc,
    List.singleton_append]

/-- The text before a space decides first, and columns behind it count from the end of both. -/
theorem ofText_append_space {w : Char} (hw : Token.isSpace w = true) (number : Nat)
    (s t : String) :
    ofText number (s ++ String.singleton w ++ t) =
      ofText number s >>= fun l =>
        ((ofText number t).mapError (LexError.shift number (s.utf8ByteSize + 1))).map fun m =>
          ⟨number, l.tokens ++ m.tokens⟩ := by
  have hscan := Token.scan_append_space hw number 0 s.toList t.toList
  rw [Nat.zero_add] at hscan
  rw [ofText, toList_append_singleton, hscan]
  cases hs : Token.scan number 0 s.toList with
  | error e =>
      rw [ofText, hs]
      rfl
  | ok ts =>
      have hread : ofText number s = .ok ⟨number, ts⟩ := by
        rw [ofText, hs]
        rfl
      have hshift := Token.scan_shift number number (s.toList.length + 1) 0 t.toList
      rw [Nat.add_zero] at hshift
      rw [hread, utf8ByteSize_of_ofText hread, ofText]
      simp only [bind, Except.bind, hshift]
      cases Token.scan number 0 t.toList with
      | error e => rfl
      | ok us => rfl

/--
Reading is compositional at a space: it fails as the first of the two texts does, or else as
the second one further on, and otherwise gives the tokens of both.
-/
theorem ofText_joined_at_space {w : Char} (hw : w ∈ [' ', '\t', '\r', '\n']) (number : Nat)
    (s t : String) :
    (forall e, ofText number s = .error e ->
      ofText number (s ++ String.singleton w ++ t) = .error e) ∧
    (forall l m, ofText number s = .ok l -> ofText number t = .ok m ->
      ofText number (s ++ String.singleton w ++ t) = .ok ⟨number, l.tokens ++ m.tokens⟩) ∧
    (forall l e, ofText number s = .ok l -> ofText number t = .error e ->
      ofText number (s ++ String.singleton w ++ t) =
        .error ⟨e.kind, number, s.utf8ByteSize + 1 + e.column⟩) := by
  have hspace : Token.isSpace w = true := by
    simpa [Token.isSpace, or_assoc] using hw
  have hjoined := ofText_append_space hspace number s t
  refine ⟨?_, ?_, ?_⟩
  · intro e hs
    rw [hjoined, hs]
    rfl
  · intro l m hs ht
    rw [hjoined, hs, ht]
    rfl
  · intro l e hs ht
    rw [hjoined, hs, ht]
    rfl

/--
Two numerals do not become one, a wrong one fails before a strange character is met, and the
column of such a character counts the text in front.
-/
theorem numerals_joined_at_space :
    ofText 7 ("12" ++ String.singleton '\t' ++ "34") =
        .ok ⟨7, [.number 12, .number 34]⟩ ∧
      ofText 7 ("1 %2" ++ String.singleton '\r' ++ "€") = .error ⟨.invalidBinary, 7, 2⟩ ∧
      ofText 7 ("LDA" ++ String.singleton '\n' ++ "#€") = .error ⟨.invalidSymbol, 7, 5⟩ := by
  have htwelve : ofText 7 "12" = .ok ⟨7, [.number 12]⟩ := by decide +kernel
  have hthirtyFour : ofText 7 "34" = .ok ⟨7, [.number 34]⟩ := by decide +kernel
  have hwrong : ofText 7 "1 %2" = .error ⟨.invalidBinary, 7, 2⟩ := by decide +kernel
  have hload : ofText 7 "LDA" = .ok ⟨7, [.mnemonic .lda]⟩ := by decide +kernel
  have hstrange : ofText 7 "#€" = .error ⟨.invalidSymbol, 7, 1⟩ := by decide +kernel
  have hsize : "LDA".utf8ByteSize = 3 := by decide +kernel
  refine ⟨?_, ?_, ?_⟩
  · exact (ofText_joined_at_space (by decide) 7 "12" "34").right.left _ _ htwelve hthirtyFour
  · exact (ofText_joined_at_space (by decide) 7 "1 %2" "€").left _ hwrong
  · rw [(ofText_joined_at_space (by decide) 7 "LDA" "#€").right.right _ _ hload hstrange, hsize]
    rfl

end TokenLine
end Asm65
