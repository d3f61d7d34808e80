import HygienicScheme.Proofs.Reading.Places

/-!
# What a report shows

A report names the token at the fault and shows the text around it. The place of the fault is
counted in bytes and the window over the text in characters, so that the window moves ahead of the
place by one character for each byte more than one that a character before it takes. The window
begins twenty characters early: as long as the text before the fault has no more surplus bytes than
that, the place is in the window and the token with it; beyond that the window begins behind the
place.
-/
namespace HygienicScheme

namespace Reader

variable {a b : List Char}

theorem byteLength_cons (c : Char) (cs : List Char) :
    byteLength (c :: cs) = c.utf8Size + byteLength cs := by
  have hshift (n : Nat) : cs.foldl (fun n c => n + c.utf8Size) n = n + byteLength cs := by
    unfold byteLength
    induction cs generalizing n with
    | nil => rfl
    | cons c cs ih =>
      rw [List.foldl_cons, List.foldl_cons, ih, ih (0 + c.utf8Size)]
      omega
  rw [byteLength, List.foldl_cons, hshift]
  omega

theorem byteLength_append (a b : List Char) :
    byteLength (a ++ b) = byteLength a + byteLength b := by
  induction a with
  | nil => exact (Nat.zero_add _).symm
  | cons c a ih =>
    rw [List.cons_append, byteLength_cons, byteLength_cons, ih]
    omega

theorem length_le_byteLength (cs : List Char) : cs.length ≤ byteLength cs := by
  induction cs with
  | nil => exact Nat.le_refl _
  | cons c cs ih =>
    have hpos := c.utf8Size_pos
    rw [byteLength_cons, List.length_cons]
    omega

theorem Fault.offset_append {f : Fault} (before : List Char) :
    f.offset (before ++ f.rest) = byteLength before := by
  rw [Fault.offset, byteLength_append, Nat.add_sub_cancel]

structure TokenAt (token rest : List Char) : Prop where
  ne_nil : token ≠ []
  starts : token <+: rest
  blankless : ∀ c ∈ token, Text.isBlank c = false
  length_le : token.length ≤ 10

theorem tokenAt_of_found {f : Fault} {token : String} (h : f.found Text.isBlank = some token) :
    TokenAt token.toList f.rest := by
  unfold Fault.found at h
  split at h
  · cases h
  · rename_i hne
    cases h
    rw [String.toList_ofList]
    refine ⟨hne, (List.take_prefix _ _).trans (List.takeWhile_prefix _), fun c hc => ?_,
      List.length_take_le _ _⟩
    simpa using List.mem_takeWhile_imp (List.mem_of_mem_take hc)

end Reader

namespace ParseError

variable {before token after : List Char}

theorem onOneLine_append (a b : List Char) : onOneLine (a ++ b) = onOneLine a ++ onOneLine b :=
  List.flatMap_append

theorem onOneLine_of_blankless (h : ∀ c ∈ token, Text.isBlank c = false) :
    onOneLine token = token := by
  induction token with
  | nil => rfl
  | cons c token ih =>
    obtain ⟨hc, htoken⟩ := List.forall_mem_cons.mp h
    have hline : c ≠ '\n' := by
      rintro rfl
      cases hc
    have hreturn : c ≠ '\r' := by
      rintro rfl
      cases hc
    rw [← List.singleton_append, onOneLine_append, ih htoken]
    simp [onOneLine, hline, hreturn]

def Shows (input : List Char) (offset index : Nat) : Prop :=
  ∃ k < (window input offset).length, offset - contextLead + k = index

/-- Behind a place the window begins if the offset is ahead of it by more than its lead. -/
theorem shows_iff {offset : Nat} (hoffset : before.length ≤ offset) (hne : after ≠ []) :
    Shows (before ++ after) offset before.length ↔ offset ≤ before.length + contextLead := by
  have hpos := List.length_pos_of_ne_nil hne
  have hlength : (window (before ++ after) offset).length =
      min contextLength (before.length + after.length - (offset - contextLead)) := by
    rw [window, List.length_take, List.length_drop, List.length_append]
  unfold Shows
  rw [hlength]
  constructor
  · rintro ⟨k, -, hk⟩
    omega
  · intro hlead
    refine ⟨before.length - (offset - contextLead), ?_, by omega⟩
    unfold contextLead at hlead
    unfold contextLead contextLength
    omega

/-- A window that begins before a place and ends behind it is cut from what is around the place. -/
theorem window_append {offset : Nat} (hfrom : offset - contextLead ≤ before.length)
    (hto : before.length + token.length ≤ offset - contextLead + contextLength) :
    ∃ n, window (before ++ (token ++ after)) offset =
      before.drop (offset - contextLead) ++ (token ++ after.take n) := by
  refine ⟨contextLength - (before.length - (offset - contextLead)) - token.length, ?_⟩
  have hroom : token.length ≤ contextLength - (before.length - (offset - contextLead)) := by omega
  rw [window, List.drop_append_of_le_length hfrom, List.take_append, List.length_drop,
    List.take_append, List.take_of_length_le (by rw [List.length_drop]; omega),
    List.take_of_length_le hroom]

theorem isInfix_contextText {offset : Nat} (hoffset : before.length ≤ offset)
    (hlead : offset ≤ before.length + contextLead)
    (htoken : Reader.TokenAt token (token ++ after)) :
    token <:+: (contextText (before ++ (token ++ after)) offset).toList := by
  have hlength := htoken.length_le
  obtain ⟨n, hwindow⟩ : ∃ n, window (before ++ (token ++ after)) offset =
      before.drop (offset - contextLead) ++ (token ++ after.take n) :=
    window_append (Nat.sub_le_of_le_add hlead) (by unfold contextLead contextLength; omega)
  have hshown : token <:+: onOneLine (window (before ++ (token ++ after)) offset) := by
    rw [hwindow, onOneLine_append, onOneLine_append, onOneLine_of_blankless htoken.blankless]
    exact ⟨_, _, List.append_assoc _ _ _⟩
  unfold contextText
  dsimp only
  rw [String.toList_append, String.toList_append, String.toList_ofList, List.append_assoc]
  exact (hshown.trans (List.prefix_append _ _).isInfix).trans (List.suffix_append _ _).isInfix

end ParseError

namespace Reader

/-- A report about a token that stands between two parts of the text. -/
structure Reports (text : String) (e : ParseError) (before token after : List Char) : Prop where
  text_eq : text.toList = before ++ (token ++ after)
  /-- Reading failed where the token begins. -/
  fault : ∃ kind, readDatum 0 (skipAtmosphere text.toList) = .error ⟨kind, token ++ after⟩
  context : e.context = some (ParseError.contextText text.toList (byteLength before))
  /-- The window covers the place exactly if the text before it has at most twenty bytes more than
  characters. -/
  covers : ParseError.Shows text.toList (byteLength before) before.length ↔
    byteLength before ≤ before.length + ParseError.contextLead
  shown : byteLength before ≤ before.length + ParseError.contextLead →
    token <:+: (ParseError.contextText text.toList (byteLength before)).toList

/-- A report that names a token stands at the token's place in the text. It shows the place, and the
token, as long as the text before has no more than twenty bytes beyond one for each character, and
what it shows begins behind the place if there are more. -/
theorem parseDatum_reports {text token : String} {e : ParseError} (h : parseDatum text = .error e)
    (hkind : e.kind ≠ .trailingContent) (hfound : e.found = some token) :
    ∃ before after, Reports text e before token.toList after := by
  rcases parseDatum_error h with rfl | ⟨rest, rfl⟩ | ⟨⟨kind, rest⟩, hf, rfl⟩
  · cases hfound
  · exact absurd rfl hkind
  · have htoken : TokenAt token.toList rest := tokenAt_of_found hfound
    obtain ⟨after, rfl⟩ := htoken.starts
    obtain ⟨before, htext⟩ := (fault_suffix hf).trans (skipAtmosphere_suffix text.toList)
    have hoffset := Fault.offset_append (f := ⟨kind, token.toList ++ after⟩) before
    rw [htext] at hoffset
    have hlength := length_le_byteLength before
    refine ⟨before, after, htext.symm, ⟨kind, hf⟩, ?_, ?_, fun hlead => ?_⟩
    · rw [← hoffset]
      rfl
    · rw [← htext]
      exact ParseError.shows_iff hlength (List.append_ne_nil_of_left_ne_nil htoken.ne_nil after)
    · rw [← htext]
      exact ParseError.isInfix_contextText hlength hlead htoken

theorem exists_error_of {ε α : Type} {x : Except ε α} {p : ε → Bool}
    (h : (match x with | .error e => p e | .ok _ => false) = true) : ∃ e, x = .error e ∧ p e := by
  cases x with
  | error e => exact ⟨e, rfl, h⟩
  | ok a => cases h

/-- A bracket that closes another, behind a letter of two bytes. -/
theorem parseDatum_reports_bracket : ∃ e, parseDatum "(é ]" = .error e ∧
    e.kind ≠ .trailingContent ∧ e.found = some "]" ∧
      ∃ before after, Reports "(é ]" e before "]".toList after := by
  obtain ⟨e, he, hp⟩ := exists_error_of (x := parseDatum "(é ]")
    (p := fun e => e.kind != .trailingContent && e.found == some "]") (by decide +kernel)
  obtain ⟨hkind, hfound⟩ := Bool.and_eq_true_iff.mp hp
  have hkind : e.kind ≠ .trailingContent := by simpa using hkind
  have hfound : e.found = some "]" := by simpa using hfound
  exact ⟨e, he, hkind, hfound, parseDatum_reports he hkind hfound⟩

/-- Behind thirty such letters the window has run past the end of the text. -/
example : (match parseDatum ("(" ++ String.ofList (List.replicate 30 'é') ++ " ]") with
    | .error e => e.found == some "]" && e.context == some "[...]"
    | .ok _ => false) = true := by decide +kernel

end Reader

end HygienicScheme
