import PocketCalculator.Proofs.Evaluation.Outcomes
import PocketCalculator.Proofs.Scanning.Parentheses

/-!
# Refusals for parentheses

Parentheses are checked before anything is read, and an expression is refused for them exactly
when they are not balanced in its text, whatever else is wrong with it. After the check the
reader meets no parenthesis that it would have to refuse.
-/
namespace PocketCalculator

open Brackets Keypad

/-! ## The check -/

section Check

variable {u w tokens : List Token}

theorem parenthesisFault_go_cons {opened : Nat} {token : Token}
    (h : Token.brackets.closes [token] ≤ opened + Token.brackets.opens [token]) (index : Nat)
    (w : List Token) :
    parenthesisFault.go index opened (token :: w) =
      parenthesisFault.go (index + 1)
        (opened + Token.brackets.opens [token] - Token.brackets.closes [token]) w := by
  cases token with
  | closeParen =>
    have hone : Token.brackets.closes [.closeParen] = 1 := rfl
    have hzero : Token.brackets.opens [.closeParen] = 0 := rfl
    have hopen : opened ≠ 0 := by omega
    exact if_neg hopen
  | _ => rfl

/-- The check goes on after tokens in which no group is closed that is not open. -/
theorem parenthesisFault_go_append (index opened : Nat) (w : List Token)
    (h : ∀ p, p <+: u → Token.brackets.closes p ≤ opened + Token.brackets.opens p) :
    parenthesisFault.go index opened (u ++ w) =
      parenthesisFault.go (index + u.length)
        (opened + Token.brackets.opens u - Token.brackets.closes u) w := by
  induction u using List.reverseRecOn generalizing w with
  | nil => rfl
  | append_singleton u token ih =>
    have hu := fun p hp => h p (List.IsPrefix.trans hp (List.prefix_append u [token]))
    have hle := hu u (List.prefix_refl u)
    have hlast := h _ (List.prefix_refl _)
    rw [opens_append, closes_append] at hlast ⊢
    rw [List.append_assoc, List.singleton_append, ih _ hu, parenthesisFault_go_cons (by omega),
      List.length_append, List.length_singleton, Nat.add_assoc]
    congr 1
    omega

/-- A closing parenthesis after balanced tokens is the first one that closes no group. -/
theorem parenthesisFault_of_unmatched (h : Token.brackets.Balanced u) :
    parenthesisFault (u ++ .closeParen :: w) = some (.unmatchedClose u.length) := by
  rw [parenthesisFault, parenthesisFault_go_append 0 0 _ h.1, h.closes_eq, Nat.zero_add,
    Nat.zero_add, Nat.sub_self]
  rfl

theorem parenthesisFault_of_unclosed (h : Token.brackets.NoneUnmatched tokens)
    (hlt : Token.brackets.closes tokens < Token.brackets.opens tokens) :
    parenthesisFault tokens =
      some (.unclosedGroups (Token.brackets.opens tokens - Token.brackets.closes tokens)) := by
  have hgo := parenthesisFault_go_append 0 0 [] fun p hp => (h p hp).trans (Nat.le_add_left _ _)
  rw [List.append_nil, Nat.zero_add, Nat.zero_add] at hgo
  rw [parenthesisFault, hgo, parenthesisFault.go, if_neg (Nat.sub_ne_zero_of_lt hlt)]

end Check

namespace Expression

/-- What is read of the whole expression once its parentheses have been checked. -/
def descend (tokens : List Token) : Reading :=
  (Reader.expression (Reader.primary maxGroups) (Cursor.start tokens)).val

theorem parseFrom_of_parenthesisFault {tokens : List Token} {fault : Fault}
    (h : parenthesisFault tokens = some fault) (c : Cursor) :
    parseFrom tokens c = (.error fault, c) := by
  rw [parseFrom, h]

/-- No place in the descent refuses the tokens for their parentheses, nor does the end of it: a
reader passes on every fault it meets, so a fault is met only if it is the outcome. -/
structure DescendsFreely (tokens : List Token) : Prop where
  inside : ∀ fault, (descend tokens).outcome = .error fault →
    fault.kind ≠ .malformedParentheses
  after : ∀ branch, (descend tokens).outcome = .ok branch →
    (descend tokens).cursor.rest.head? ≠ some .closeParen

theorem descendsFreely_of_balanced {tokens : List Token} (h : Token.brackets.Balanced tokens) :
    DescendsFreely tokens := by
  have hsound := Reader.primary_sound maxGroups
  refine ⟨fun fault hfault => ?_, fun branch hbranch hclose => ?_⟩
  · have horderly := Reader.expression_orderly hsound (Reader.primary_orderly maxGroups)
    rcases horderly (Cursor.start tokens) fault h hfault with hkind | hkind <;> simp [hkind]
  · obtain ⟨w, hw, hd⟩ := Reader.expression_sound hsound (Cursor.start tokens) branch hbranch
    have hrest := hw.closesAll hd.balanced h
    rw [hw.depth] at hrest
    obtain ⟨rest, hcons⟩ := List.head?_eq_some_iff.mp hclose
    rw [descend] at hcons
    rw [hcons] at hrest
    exact absurd hrest (not_closesAll_zero_closing (b := Token.brackets))

/-! ## Refused texts -/

/-- The expression is refused for its parentheses with this detail, when it is read and when it
is evaluated under any settings, and nothing of it is taken. -/
def RefusedFor (text detail : List Char) : Prop :=
  ∃ fault : Fault, fault.kind = .malformedParentheses ∧ fault.detail = detail ∧
    parse text = .error fault ∧ (∀ s : Settings, s.evaluate text = .error fault) ∧
    parseFrom (Token.scan text) (.start (Token.scan text)) =
      (.error fault, .start (Token.scan text))

theorem refusedFor_of_parenthesisFault {text : List Char} {fault : Fault}
    (h : parenthesisFault (Token.scan text) = some fault)
    (hkind : fault.kind = .malformedParentheses) : RefusedFor text fault.detail := by
  have hparse := parseFrom_of_parenthesisFault h (.start (Token.scan text))
  have herror : parse text = .error fault := by
    rw [parse, ofTokens, hparse]
  exact ⟨fault, hkind, rfl, herror, Settings.evaluate_of_parse_error herror, hparse⟩

theorem exists_refusedFor_of_unmatched {text : List Char} (h : ¬brackets.NoneUnmatched text) :
    ∃ before after later, text = before ++ ')' :: after ∧ brackets.Balanced before ∧
      Token.scan text = Token.scan before ++ .closeParen :: later ∧
      RefusedFor text
        ("unmatched ')' at token ".toList ++ Nat.toDigits 10 (Token.scan before).length) := by
  obtain ⟨before, after, hsplit, hbefore⟩ := exists_unmatched h
  obtain ⟨later, hlater⟩ := scan_append_close before after
  have htext : text = before ++ ')' :: after := hsplit
  rw [← htext] at hlater
  have hcheck : parenthesisFault (Token.scan text) =
      some (.unmatchedClose (Token.scan before).length) := by
    rw [hlater]
    exact parenthesisFault_of_unmatched ((balanced_scan_iff before).mpr hbefore)
  exact ⟨before, after, later, htext, hbefore, hlater, refusedFor_of_parenthesisFault hcheck rfl⟩

theorem refusedFor_of_unclosed {text : List Char} (h : brackets.NoneUnmatched text)
    (hn : ¬brackets.Balanced text) :
    RefusedFor text (Nat.toDigits 10 (brackets.opens text - brackets.closes text) ++
      " unclosed '('".toList) := by
  have hmarks := marks_scan text
  have hlt : brackets.closes text < brackets.opens text := by
    refine Nat.lt_of_le_of_ne (h text (List.prefix_refl text)) fun heq => ?_
    exact hn (balanced_iff.mpr ⟨h, heq⟩)
  rw [← opens_eq_of_marks hmarks, ← closes_eq_of_marks hmarks] at hlt ⊢
  exact refusedFor_of_parenthesisFault
    (parenthesisFault_of_unclosed ((noneUnmatched_iff_of_marks hmarks).mpr h) hlt) rfl

theorem exists_refusedFor {text : List Char} (h : ¬brackets.Balanced text) :
    ∃ detail, RefusedFor text detail := by
  by_cases hu : brackets.NoneUnmatched text
  · exact ⟨_, refusedFor_of_unclosed hu h⟩
  · obtain ⟨_, _, _, -, -, -, hrefused⟩ := exists_refusedFor_of_unmatched hu
    exact ⟨_, hrefused⟩

theorem balanced_kind_ne {text : List Char} (h : brackets.Balanced text) {fault : Fault}
    (hfault : parse text = .error fault) : fault.kind ≠ .malformedParentheses := by
  rcases inReading_of_balanced ((balanced_scan_iff text).mpr h) hfault with hkind | hkind <;>
    simp [hkind]

/-- An expression is refused for its parentheses exactly when they are not balanced in its
text. The detail names the token of the first closing parenthesis that closes no group, or else
the number of groups left open, and only the check before the descent ever refuses. -/
theorem refused_for_parentheses_iff_unbalanced (text : List Char) :
    ((∃ fault, parse text = .error fault ∧ fault.kind = .malformedParentheses) ↔
      ¬brackets.Balanced text) ∧
    (∀ s : Settings,
      (∃ fault, s.evaluate text = .error fault ∧ fault.kind = .malformedParentheses) ↔
        ¬brackets.Balanced text) ∧
    (¬brackets.NoneUnmatched text →
      ∃ before after later, text = before ++ ')' :: after ∧ brackets.Balanced before ∧
        Token.scan text = Token.scan before ++ .closeParen :: later ∧
        RefusedFor text
          ("unmatched ')' at token ".toList ++ Nat.toDigits 10 (Token.scan before).length)) ∧
    (brackets.NoneUnmatched text → ¬brackets.Balanced text →
      RefusedFor text (Nat.toDigits 10 (brackets.opens text - brackets.closes text) ++
        " unclosed '('".toList)) ∧
    (brackets.Balanced text → DescendsFreely (Token.scan text)) := by
  refine ⟨⟨?_, ?_⟩, fun s => ⟨?_, ?_⟩, exists_refusedFor_of_unmatched, refusedFor_of_unclosed,
    fun h => descendsFreely_of_balanced ((balanced_scan_iff text).mpr h)⟩
  · rintro ⟨fault, hfault, hkind⟩ hbalanced
    exact balanced_kind_ne hbalanced hfault hkind
  · intro hn
    obtain ⟨detail, fault, hkind, -, hfault, -⟩ := exists_refusedFor hn
    exact ⟨fault, hfault, hkind⟩
  · rintro ⟨fault, hfault, hkind⟩ hbalanced
    rcases Settings.fault_of_evaluate hfault with hparse | rfl | rfl
    · exact balanced_kind_ne hbalanced hparse hkind
    · cases hkind
    · cases hkind
  · intro hn
    obtain ⟨detail, fault, hkind, -, -, hfault, -⟩ := exists_refusedFor hn
    exact ⟨fault, hfault s, hkind⟩

example : parse "1)(.".toList = .error (.unmatchedClose 1) := by decide +kernel

end Expression

end PocketCalculator
