import HygienicScheme.Reader.Atmosphere
import HygienicScheme.Reader.Token

/-! Reading always moves forward: what a token leaves is shorter than what it was taken from. -/
namespace HygienicScheme.Reader

abbrev Rest (cs : List Char) := { rest : List Char // rest.length < cs.length }

theorem stringBody_length {text cs : List Char} {r : List Char × List Char}
    (h : stringBody text cs = .ok r) : r.2.length < cs.length := by
  fun_induction stringBody text cs generalizing r <;> grind

theorem atomAt_rest {start rest : List Char} {result : Except FaultKind Datum}
    {t : Token} {rest' : List Char} (h : atomAt start result rest = .ok (t, rest')) :
    rest' = rest := by
  cases result <;> simp_all [atomAt]

theorem length_dropWhile_lt {p : Char → Bool} {c : Char} {cs : List Char} (h : p c) :
    ((c :: cs).dropWhile p).length < (c :: cs).length := by
  have := (List.dropWhile_sublist p (l := cs)).length_le
  simp [List.dropWhile, h]
  omega

theorem scan_progress {cs rest : List Char} {t : Token} (h : scan cs = .ok (t, rest)) :
    rest.length < cs.length := by
  unfold scan at h
  split at h
  case h_8 body =>
    cases hb : stringBody [] body with
    | error f => simp [hb, bind, Except.bind] at h
    | ok r =>
      have := stringBody_length hb
      simp [hb, bind, Except.bind, pure, Except.pure] at h
      simp [← h.2]
      omega
  case h_11 =>
    rw [atomAt_rest h]
    exact Nat.lt_of_le_of_lt (List.dropWhile_sublist _).length_le (by grind)
  case h_12 =>
    rw [atomAt_rest h]
    exact Nat.lt_of_le_of_lt (List.dropWhile_sublist _).length_le (by grind)
  case h_13 =>
    split at h
    case isTrue hc =>
      rw [atomAt_rest h]
      exact length_dropWhile_lt hc
    case isFalse => simp at h
  all_goals grind

end HygienicScheme.Reader
