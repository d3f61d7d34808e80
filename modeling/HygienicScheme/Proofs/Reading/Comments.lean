import HygienicScheme.Proofs.Reading.Cutting
import HygienicScheme.Proofs.Reading.Seams

/-!
# Comments between tokens

Two texts that differ by what stands at a seam are read side by side. A blank or a block comment
there leaves all data as they are. A datum comment does so where a datum follows it; before a
closing bracket, before a point that stands alone and at the end of the text it is no comment, and
the text with it is rejected.
-/
namespace HygienicScheme.Reader

variable {ins post pre cs cs' text rest more : List Char} {c : Char} {t : Token} {d tail : Datum}
  {n depth : Nat} {st : List Construct} {close : Char} {seen items ds : List Datum}

structure Silent (n : Nat) (ins post : List Char) : Prop where
  /-- It is kept apart from the token before. -/
  blank : ∃ x more, isSpace x ∧ ins = x :: more
  datum : ∀ d rest, Reads n (skipAtmosphere post) d rest →
    Reads n (skipAtmosphere (ins ++ post)) d rest
  mark : (∀ c rest, skipAtmosphere post = c :: rest → isMark c rest) →
    skipAtmosphere (ins ++ post) = skipAtmosphere post

def TokenFollows (post : List Char) : Prop :=
  ∃ c rest, skipAtmosphere post = c :: rest ∧ isMark c rest = false

def Begun (n : Nat) (post : List Char) : Prop :=
  TokenFollows post → ∃ d rest, Reads n (skipAtmosphere post) d rest

inductive Spliced (ins post : List Char) (n : Nat) : List Construct → List Char → List Char → Prop
  | behind (hbegun : Begun n post) (st : List Construct) (cs : List Char) :
      Spliced ins post n st cs cs
  | ahead {st : List Construct} {pre : List Char} (hseam : Seam st n pre post) :
      Spliced ins post n st (pre ++ post) (pre ++ (ins ++ post))

theorem begun_of_over (h : skipAtmosphere post = []) : Begun n post := by
  rintro ⟨c, rest, hskip, -⟩
  cases h.symm.trans hskip

theorem begun_of_mark (h : skipAtmosphere post = c :: rest) (hc : isMark c rest) :
    Begun n post := by
  rintro ⟨x, rest', hskip, hnot⟩
  cases h.symm.trans hskip
  cases hc.symm.trans hnot

theorem Silent.parted (hs : Silent n ins post) (pre : List Char) :
    Parted (pre ++ post) (pre ++ (ins ++ post)) := by
  obtain ⟨x, more, hx, rfl⟩ := hs.blank
  cases pre with
  | nil => exact parted_space hx post _
  | cons c pre => exact parted_cons c _ _

/-- Reading has gone past the place in both texts, both stand before it, or the same lexeme is at
the front of both. -/
theorem Spliced.front (hs : Silent n ins post) (h : Spliced ins post n st cs cs') :
    (cs' = cs ∧ Begun n post) ∨
    (depthOf st = n ∧ skipAtmosphere cs = skipAtmosphere post ∧
      skipAtmosphere cs' = skipAtmosphere (ins ++ post)) ∨
    ∃ u st' rest rest', skipAtmosphere cs = u ++ rest ∧ skipAtmosphere cs' = u ++ rest' ∧
      Lexeme st u rest st' ∧ Parted rest rest' ∧ Spliced ins post n st' rest rest' := by
  cases h with
  | behind hbegun => exact .inl ⟨rfl, hbegun⟩
  | ahead hseam =>
    rcases hseam.front with ⟨hdepth, hall⟩ | ⟨u, pre', st', hall, hlexeme, hmore⟩
    · exact .inr (.inl ⟨hdepth, hall _, hall _⟩)
    · have hparted := hs.parted pre'
      refine .inr (.inr ⟨u, st', _, _, ?_, ?_, hlexeme, hparted, .ahead hmore⟩)
      · rw [hall, hlexeme.skip]
      · rw [hall, (hlexeme.congr hparted).skip]

theorem Spliced.over (hs : Silent n ins post) (h : Spliced ins post n st cs cs')
    (hskip : skipAtmosphere cs = []) : skipAtmosphere cs' = [] ∧ Begun n post := by
  rcases h.front hs with
    ⟨rfl, hbegun⟩ | ⟨-, hcs, hcs'⟩ | ⟨u, st', rest, rest', hcs, -, hlexeme, -, -⟩
  · exact ⟨hskip, hbegun⟩
  · rw [hskip] at hcs
    refine ⟨?_, begun_of_over hcs.symm⟩
    rw [hcs', hs.mark, ← hcs]
    intro c rest hpost
    cases hcs.trans hpost
  · rw [hskip] at hcs
    exact absurd (List.append_eq_nil_iff.mp hcs.symm).1 hlexeme.ne_nil

/-- A token is taken from both texts, unless what is inserted stands before it. -/
theorem Spliced.scan (hs : Silent n ins post) (h : Spliced ins post n st cs cs')
    (hscan : scan (skipAtmosphere cs) = .ok (t, more)) :
    (depthOf st = n ∧ skipAtmosphere cs = skipAtmosphere post ∧
      skipAtmosphere cs' = skipAtmosphere (ins ++ post)) ∨
    ∃ more', Reader.scan (skipAtmosphere cs') = .ok (t, more') ∧
      Spliced ins post n (t.enter st) more more' := by
  rcases h.front hs with
    ⟨rfl, hbegun⟩ | hhere | ⟨u, st', rest, rest', hcs, hcs', hlexeme, hparted, hmore⟩
  · exact .inr ⟨more, hscan, .behind hbegun _ _⟩
  · exact .inl hhere
  · rw [hcs] at hscan
    obtain ⟨rfl, rfl⟩ := hlexeme.of_scan hscan
    exact .inr ⟨rest', hcs' ▸ scan_congr hscan hparted, hmore⟩

theorem Silent.before_mark (hs : Silent n ins post) (hskip : skipAtmosphere post = c :: more)
    (hc : isMark c more) : skipAtmosphere (ins ++ post) = c :: more := by
  rw [hs.mark, hskip]
  intro x rest hpost
  cases hskip.symm.trans hpost
  exact hc

theorem Spliced.bracket (hs : Silent n ins post) (h : Spliced ins post n (.bracket :: st) cs cs')
    (hc : c = ')' ∨ c = ']') (hskip : skipAtmosphere cs = c :: more) :
    ∃ more', skipAtmosphere cs' = c :: more' ∧ Spliced ins post n (settle st) more more' := by
  have hmark : isMark c more := isMark_of_bracket hc
  rcases h.front hs with
    ⟨rfl, hbegun⟩ | ⟨-, hcs, hcs'⟩ | ⟨u, st', rest, rest', hcs, hcs', hlexeme, -, hmore⟩
  · exact ⟨more, hskip, .behind hbegun _ _⟩
  · have hpost := hcs.symm.trans hskip
    exact ⟨more, hcs'.trans (hs.before_mark hpost hmark), .behind (begun_of_mark hpost hmark) _ _⟩
  · obtain ⟨rfl, rfl, rfl⟩ := hlexeme.of_bracket hc (hcs.symm.trans hskip)
    exact ⟨rest', hcs', hmore⟩

theorem Spliced.dot (hs : Silent n ins post) (h : Spliced ins post n st cs cs')
    (hskip : skipAtmosphere cs = c :: more) (hdot : isLoneDot c more) :
    ∃ more', skipAtmosphere cs' = c :: more' ∧ isLoneDot c more' ∧
      Spliced ins post n st more more' := by
  have hmark := isMark_of_lone hdot
  rcases h.front hs with
    ⟨rfl, hbegun⟩ | ⟨-, hcs, hcs'⟩ | ⟨u, st', rest, rest', hcs, hcs', hlexeme, hparted, hmore⟩
  · exact ⟨more, hskip, hdot, .behind hbegun _ _⟩
  · have hpost := hcs.symm.trans hskip
    exact ⟨more, hcs'.trans (hs.before_mark hpost hmark), hdot,
      .behind (begun_of_mark hpost hmark) _ _⟩
  · obtain ⟨rfl, rfl, rfl⟩ := hlexeme.of_dot hdot (hcs.symm.trans hskip)
    obtain rfl := eq_of_isLoneDot hdot
    exact ⟨rest', hcs', isLoneDot_iff.mpr (hparted.boundary (isLoneDot_iff.mp hdot)), hmore⟩

theorem Spliced.here (hs : Silent n ins post) (hdepth : depthOf st = n)
    (hcs : skipAtmosphere cs = skipAtmosphere post)
    (hcs' : skipAtmosphere cs' = skipAtmosphere (ins ++ post))
    (hread : Reads (depthOf st) (skipAtmosphere cs) d rest) :
    ∃ rest', Spliced ins post n (settle st) rest rest' ∧
      Reads (depthOf st) (skipAtmosphere cs') d rest' := by
  rw [hdepth, hcs] at hread
  refine ⟨rest, .behind (fun _ => ⟨d, rest, hread⟩) _ _, ?_⟩
  rw [hcs', hdepth]
  exact hs.datum d rest hread

theorem ReadsItems.of_reads (hclose : close = ')' ∨ close = ']')
    (hread : Reads depth (skipAtmosphere cs) d rest)
    (hmore : ReadsItems close depth (d :: seen) rest items tail more) :
    ReadsItems close depth seen cs items tail more := by
  obtain ⟨t, rest', hscan⟩ := hread.scan
  cases hskip : skipAtmosphere cs with
  | nil =>
    rw [hskip] at hscan
    cases hscan
  | cons c start =>
    rw [hskip] at hscan hread
    have hmark := not_isMark_of_scan hscan
    simp only [isMark, Bool.or_eq_false_iff, beq_eq_false_iff_ne] at hmark
    obtain ⟨⟨hround, hsquare⟩, hdot⟩ := hmark
    refine .item hskip ?_ ⟨hround, hsquare⟩ hdot hread hmore
    rcases hclose with rfl | rfl
    · exact hround
    · exact hsquare

variable (ins post n) in
def Carries (depth : Nat) (text : List Char) (d : Datum) (rest : List Char) : Prop :=
  ∀ st cs cs', Spliced ins post n st cs cs' → depthOf st = depth → skipAtmosphere cs = text →
    ∃ rest', Spliced ins post n (settle st) rest rest' ∧ Reads depth (skipAtmosphere cs') d rest'

variable (ins post n) in
def CarriesItems (close : Char) (depth : Nat) (seen : List Datum) (cs : List Char)
    (items : List Datum) (tail : Datum) (rest : List Char) : Prop :=
  ∀ st cs', Spliced ins post n (.bracket :: st) cs cs' → depthOf (.bracket :: st) = depth →
    ∃ rest', Spliced ins post n (settle st) rest rest' ∧
      ReadsItems close depth seen cs' items tail rest'

theorem carries_constant (hs : Silent n ins post) (hlt : depth < maxDepth)
    (hscan : scan text = .ok (.constant d, rest)) : Carries ins post n depth text d rest := by
  rintro st cs cs' h rfl rfl
  rcases h.scan hs hscan with ⟨hn, hcs, hcs'⟩ | ⟨more', hscan', hmore⟩
  · exact Spliced.here hs hn hcs hcs' (.constant hlt hscan)
  · exact ⟨more', hmore, .constant hlt hscan'⟩

theorem carries_list (hs : Silent n ins post) (hlt : depth < maxDepth)
    (hscan : scan text = .ok (.list close, more))
    (hitems : ReadsItems close (depth + 1) [] more items tail rest)
    (ih : CarriesItems ins post n close (depth + 1) [] more items tail rest) :
    Carries ins post n depth text (.listWithTail items tail) rest := by
  rintro st cs cs' h rfl rfl
  rcases h.scan hs hscan with ⟨hn, hcs, hcs'⟩ | ⟨more', hscan', hmore⟩
  · exact Spliced.here hs hn hcs hcs' (.list hlt hscan hitems)
  · obtain ⟨rest', hrest, hitems'⟩ := ih st more' hmore rfl
    exact ⟨rest', hrest, .list hlt hscan' hitems'⟩

theorem carries_vector (hs : Silent n ins post) (hlt : depth < maxDepth)
    (hscan : scan text = .ok (.vector, more))
    (hitems : ReadsItems ')' (depth + 1) [] more items .null rest)
    (ih : CarriesItems ins post n ')' (depth + 1) [] more items .null rest) :
    Carries ins post n depth text (.vector items) rest := by
  rintro st cs cs' h rfl rfl
  rcases h.scan hs hscan with ⟨hn, hcs, hcs'⟩ | ⟨more', hscan', hmore⟩
  · exact Spliced.here hs hn hcs hcs' (.vector hlt hscan hitems)
  · obtain ⟨rest', hrest, hitems'⟩ := ih st more' hmore rfl
    exact ⟨rest', hrest, .vector hlt hscan' hitems'⟩

theorem carries_abbreviation {keyword : String} (hs : Silent n ins post) (hlt : depth < maxDepth)
    (hscan : scan text = .ok (.abbreviation keyword, more))
    (hread : Reads (depth + 1) (skipAtmosphere more) d rest)
    (ih : Carries ins post n (depth + 1) (skipAtmosphere more) d rest) :
    Carries ins post n depth text (.list [.name keyword, d]) rest := by
  rintro st cs cs' h rfl rfl
  rcases h.scan hs hscan with ⟨hn, hcs, hcs'⟩ | ⟨more', hscan', hmore⟩
  · exact Spliced.here hs hn hcs hcs' (.abbreviation hlt hscan hread)
  · obtain ⟨rest', hrest, hread'⟩ := ih _ more more' hmore rfl rfl
    exact ⟨rest', hrest, .abbreviation hlt hscan' hread'⟩

theorem carries_comment {dropped : Datum} {more₂ : List Char} (hs : Silent n ins post)
    (hlt : depth < maxDepth) (hscan : scan text = .ok (.comment, more))
    (hdropped : Reads depth (skipAtmosphere more) dropped more₂)
    (hread : Reads depth (skipAtmosphere more₂) d rest)
    (ihdropped : Carries ins post n depth (skipAtmosphere more) dropped more₂)
    (ih : Carries ins post n depth (skipAtmosphere more₂) d rest) :
    Carries ins post n depth text d rest := by
  rintro st cs cs' h rfl rfl
  rcases h.scan hs hscan with ⟨hn, hcs, hcs'⟩ | ⟨more', hscan', hmore⟩
  · exact Spliced.here hs hn hcs hcs' (.comment hlt hscan hdropped hread)
  · obtain ⟨more₂', hmore₂, hdropped'⟩ := ihdropped _ more more' hmore rfl rfl
    obtain ⟨rest', hrest, hread'⟩ := ih st more₂ more₂' hmore₂ rfl rfl
    exact ⟨rest', hrest, .comment hlt hscan' hdropped' hread'⟩

theorem carriesItems_close (hs : Silent n ins post) (hclose : close = ')' ∨ close = ']')
    (hskip : skipAtmosphere cs = close :: rest) :
    CarriesItems ins post n close depth seen cs seen.reverse .null rest := by
  intro st cs' h hdepth
  obtain ⟨rest', hskip', hrest⟩ := h.bracket hs hclose hskip
  exact ⟨rest', hrest, .close hskip'⟩

theorem carriesItems_dot {more₂ : List Char} (hs : Silent n ins post)
    (hclose : close = ')' ∨ close = ']') (hskip : skipAtmosphere cs = c :: more) (hne : c ≠ close)
    (hbracket : c ≠ ')' ∧ c ≠ ']') (hdot : isLoneDot c more) (hseen : seen ≠ [])
    (hend : skipAtmosphere more₂ = close :: rest)
    (ih : Carries ins post n depth (skipAtmosphere more) tail more₂) :
    CarriesItems ins post n close depth seen cs seen.reverse tail rest := by
  intro st cs' h hdepth
  obtain ⟨more', hskip', hdot', hmore⟩ := h.dot hs hskip hdot
  obtain ⟨more₂', hmore₂, htail'⟩ := ih _ more more' hmore hdepth rfl
  obtain ⟨rest', hend', hrest⟩ := Spliced.bracket hs hmore₂ hclose hend
  exact ⟨rest', hrest, .dot hskip' hne hbracket hdot' hseen htail' hend'⟩

theorem carriesItems_item (hclose : close = ')' ∨ close = ']')
    (hskip : skipAtmosphere cs = c :: more) {more₂ : List Char}
    (ihread : Carries ins post n depth (c :: more) d more₂)
    (ih : CarriesItems ins post n close depth (d :: seen) more₂ items tail rest) :
    CarriesItems ins post n close depth seen cs items tail rest := by
  intro st cs' h hdepth
  obtain ⟨more₂', hmore₂, hread'⟩ := ihread _ cs cs' h hdepth hskip
  obtain ⟨rest', hrest, hitems⟩ := ih st more₂' hmore₂ hdepth
  exact ⟨rest', hrest, .of_reads hclose hread' hitems⟩

mutual

theorem Reads.carries {depth : Nat} {text rest : List Char} {d : Datum} (hs : Silent n ins post) :
    Reads depth text d rest → Carries ins post n depth text d rest
  | .constant hlt hscan => carries_constant hs hlt hscan
  | .list hlt hscan hitems =>
    carries_list hs hlt hscan hitems (hitems.carries hs (close_of_scan hscan))
  | .vector hlt hscan hitems => carries_vector hs hlt hscan hitems (hitems.carries hs (.inl rfl))
  | .abbreviation hlt hscan hread => carries_abbreviation hs hlt hscan hread (hread.carries hs)
  | .comment hlt hscan hdropped hread =>
    carries_comment hs hlt hscan hdropped hread (hdropped.carries hs) (hread.carries hs)

theorem ReadsItems.carries {close : Char} {depth : Nat} {seen items : List Datum}
    {cs rest : List Char} {tail : Datum} (hs : Silent n ins post)
    (hclose : close = ')' ∨ close = ']') : ReadsItems close depth seen cs items tail rest →
      CarriesItems ins post n close depth seen cs items tail rest
  | .close hskip => carriesItems_close hs hclose hskip
  | .dot hskip hne hbracket hdot hseen htail hend =>
    carriesItems_dot hs hclose hskip hne hbracket hdot hseen hend (htail.carries hs)
  | .item hskip _ _ _ hread hmore =>
    carriesItems_item hclose hskip (hread.carries hs) (hmore.carries hs hclose)

end

theorem readAll_reads (h : Reads 0 (skipAtmosphere cs) d rest) :
    readAll cs = (readAll rest).map (d :: ·) := by
  obtain ⟨t, more, hscan⟩ := h.scan
  cases hskip : skipAtmosphere cs with
  | nil =>
    rw [hskip] at hscan
    cases hscan
  | cons c start =>
    rw [hskip] at h
    obtain ⟨hr, hread⟩ := h.readsTo
    exact readAll_cons hskip hread

theorem readAll_splice {cs cs' : List Char} {ds : List Datum} (hs : Silent n ins post)
    (h : Spliced ins post n [] cs cs') (hread : readAll cs = .ok ds) :
    readAll cs' = .ok ds ∧ Begun n post := by
  rcases readAll_ok hread with ⟨rfl, hskip⟩ | ⟨c, start, d, r, ds, hskip, hd, hmore, rfl⟩
  · obtain ⟨hskip', hbegun⟩ := h.over hs hskip
    exact ⟨readAll_nil hskip', hbegun⟩
  · have hshort := Nat.lt_of_lt_of_le r.2 (hskip ▸ skipAtmosphere_length cs)
    obtain ⟨rest', hrest, hd'⟩ := (reads_of_readDatum hd).carries hs [] cs cs' h rfl hskip
    obtain ⟨hmore', hbegun⟩ := readAll_splice hs hrest hmore
    exact ⟨by rw [readAll_reads hd', hmore']; rfl, hbegun⟩
termination_by cs.length

/-! ### What may be inserted -/

theorem silent_of_skip {x : Char} (hx : isSpace x)
    (hskip : skipAtmosphere (x :: more ++ post) = skipAtmosphere post) :
    Silent n (x :: more) post where
  blank := ⟨x, more, hx, rfl⟩
  datum d rest hread := by rwa [hskip]
  mark _ := hskip

theorem silent_space (n : Nat) (post : List Char) : Silent n [' '] post :=
  silent_of_skip rfl (skipAtmosphere_space rfl)

theorem silent_block {body : List Char} (hbody : ¬ ['|', '#'] <:+: body) (n : Nat)
    (post : List Char) : Silent n (' ' :: '#' :: '|' :: (body ++ ['|', '#', ' '])) post := by
  refine silent_of_skip rfl ?_
  have hblock := (Gap.block hbody).skip (' ' :: post)
  rw [List.cons_append, skipAtmosphere_space rfl]
  simp only [List.cons_append, List.append_assoc, List.nil_append] at hblock ⊢
  rw [hblock, skipAtmosphere_space rfl]

inductive Gaps : List Char → Prop
  | nil : Gaps []
  | cons {u more : List Char} (hgap : Gap u) (hmore : Gaps more) : Gaps (u ++ more)

theorem Gaps.skip {gaps : List Char} (h : Gaps gaps) (cs : List Char) :
    skipAtmosphere (gaps ++ cs) = skipAtmosphere cs := by
  induction h with
  | nil => rfl
  | @cons u more hgap hmore ih => rw [List.append_assoc, hgap.skip, ih]

def IsDatumText (depth : Nat) (text : List Char) : Prop :=
  ∃ d rest, readDatum depth (skipAtmosphere text) = .ok (d, rest) ∧ Gaps rest.1

theorem IsDatumText.dropped {body : List Char} (h : IsDatumText n body) (cs : List Char) :
    ∃ x rest, Reads n (skipAtmosphere (body ++ ' ' :: cs)) x rest ∧
      skipAtmosphere rest = skipAtmosphere cs := by
  obtain ⟨x, r, hread, hgaps⟩ := h
  have hread := reads_of_readDatum hread
  refine ⟨x, r.1 ++ ' ' :: cs, hread.skip_append rfl (hread.append rfl cs), ?_⟩
  rw [hgaps.skip, skipAtmosphere_space rfl]

theorem reads_commented_iff {body : List Char} (hbody : IsDatumText n body) :
    Reads n ('#' :: ';' :: (body ++ ' ' :: cs)) d rest ↔ Reads n (skipAtmosphere cs) d rest := by
  obtain ⟨x, more, hdropped, hmore⟩ := hbody.dropped cs
  constructor
  · intro h
    cases h with
    | comment hlt hscan hdropped' hread =>
      cases hscan
      obtain ⟨_, hx⟩ := hdropped.readsTo
      obtain ⟨_, hx'⟩ := hdropped'.readsTo
      cases hx.symm.trans hx'
      rwa [← hmore]
    | constant hlt hscan => cases hscan
    | list hlt hscan => cases hscan
    | vector hlt hscan => cases hscan
    | abbreviation hlt hscan => cases hscan
  · intro h
    exact .comment h.depth_lt rfl hdropped (hmore ▸ h)

theorem skipAtmosphere_commented (body post : List Char) :
    skipAtmosphere (' ' :: '#' :: ';' :: (body ++ [' ']) ++ post) =
      '#' :: ';' :: (body ++ ' ' :: post) := by
  rw [List.cons_append, skipAtmosphere_space rfl]
  simp only [List.cons_append, List.append_assoc, List.nil_append]
  exact skipAtmosphere_cons rfl (by decide) (fun _ => by simp)

theorem silent_datum {body : List Char} (hbody : IsDatumText n body)
    (hpost : TokenFollows post) :
    Silent n (' ' :: '#' :: ';' :: (body ++ [' '])) post where
  blank := ⟨' ', _, rfl, rfl⟩
  datum d rest hread := by
    rw [skipAtmosphere_commented]
    exact (reads_commented_iff hbody).mpr hread
  mark hmark := by
    obtain ⟨c, rest, hskip, hnot⟩ := hpost
    rw [hmark c rest hskip] at hnot
    cases hnot

/-- A seam is one whatever follows it, as long as that cannot be taken into the token before. -/
theorem Seam.congr {post' : List Char} (h : Seam st n pre post) (hparted : Parted post post') :
    Seam st n pre post' := by
  induction h with
  | here st => exact .here st post'
  | gap hgap hmore ih => exact .gap hgap (ih hparted)
  | @lexeme st st' n u pre post hlexeme hmore ih =>
    have hmore : Parted (pre ++ post) (pre ++ post') := by
      cases pre with
      | nil => exact hparted
      | cons c pre => exact parted_cons c _ _
    exact .lexeme (hlexeme.congr hmore) (ih hparted)

theorem readAll_insert (hs : Silent n ins post) (hseam : Seam [] n pre post)
    (hread : readAll (pre ++ post) = .ok ds) : readAll (pre ++ (ins ++ post)) = .ok ds :=
  (readAll_splice hs (.ahead hseam) hread).1

theorem tokenFollows_of_commented {body : List Char} (hbody : IsDatumText n body)
    (hseam : Seam [] n pre post)
    (hread : readAll (pre ++ (' ' :: '#' :: ';' :: (body ++ [' ']) ++ post)) = .ok ds) :
    TokenFollows post := by
  have hskip := skipAtmosphere_commented body post
  have hbegun : Begun n (' ' :: '#' :: ';' :: (body ++ [' ']) ++ post) :=
    (readAll_splice (silent_space n _) (.ahead (hseam.congr (parted_space rfl post _))) hread).2
  obtain ⟨d, rest, hd⟩ := hbegun ⟨_, _, hskip, rfl⟩
  rw [hskip, reads_commented_iff hbody] at hd
  obtain ⟨t, more, hscan⟩ := hd.scan
  cases hpost : skipAtmosphere post with
  | nil =>
    rw [hpost] at hscan
    cases hscan
  | cons c start =>
    rw [hpost] at hscan
    exact ⟨c, start, hpost, not_isMark_of_scan hscan⟩

/-! ### Programs with comments -/

/-- What becomes of the data of a program in two parts when something is inserted between the parts,
where a datum would stand at this depth. -/
structure SparesComments (a b : String) (depth : Nat) (ds : List Datum) : Prop where
  blank : parseProgram (a ++ " " ++ b) = .ok ds
  block : ∀ body : String, ¬ "|#".toList <:+: body.toList →
    parseProgram (a ++ " #|" ++ body ++ "|# " ++ b) = .ok ds
  datum : ∀ d : String, IsDatumText depth d.toList → TokenFollows b.toList →
    parseProgram (a ++ " #;" ++ d ++ " " ++ b) = .ok ds
  /-- Where no datum follows, a datum comment is an error. -/
  rejected : ∀ d : String, IsDatumText depth d.toList → ¬ TokenFollows b.toList →
    ∃ e, parseProgram (a ++ " #;" ++ d ++ " " ++ b) = .error e

/-- Between the tokens of a program blanks and block comments make no difference, and datum comments
make none where a token follows them that begins a datum; before a closing bracket, before a point
that stands alone and at the end they do not count as comments. -/
theorem parseProgram_commented {a b : String} {depth : Nat} {ds : List Datum}
    (hseam : Seam [] depth a.toList b.toList) (h : parseProgram (a ++ b) = .ok ds) :
    SparesComments a b depth ds := by
  have hread : readAll (a.toList ++ b.toList) = .ok ds := by
    rw [← String.toList_append]
    exact parseProgram_ok_iff.mp h
  have hdatum (d : String) : (a ++ " #;" ++ d ++ " " ++ b).toList =
      a.toList ++ (' ' :: '#' :: ';' :: (d.toList ++ [' ']) ++ b.toList) := by
    simp [String.toList_append]
  constructor
  · have htext : (a ++ " " ++ b).toList = a.toList ++ ([' '] ++ b.toList) := by
      simp [String.toList_append]
    rw [parseProgram_ok_iff, htext]
    exact readAll_insert (silent_space depth _) hseam hread
  · intro body hbody
    have htext : (a ++ " #|" ++ body ++ "|# " ++ b).toList =
        a.toList ++ (' ' :: '#' :: '|' :: (body.toList ++ ['|', '#', ' ']) ++ b.toList) := by
      simp [String.toList_append]
    rw [parseProgram_ok_iff, htext]
    exact readAll_insert (silent_block hbody depth _) hseam hread
  · intro d hd hfollows
    rw [parseProgram_ok_iff, hdatum]
    exact readAll_insert (silent_datum hd hfollows) hseam hread
  · intro d hd hnot
    cases hboth : parseProgram (a ++ " #;" ++ d ++ " " ++ b) with
    | error e => exact ⟨e, rfl⟩
    | ok ds' =>
      rw [parseProgram_ok_iff, hdatum] at hboth
      exact absurd (tokenFollows_of_commented hd hseam hboth) hnot

theorem isDatumText_atom {d : Datum} {text : List Char} (hdepth : depth < maxDepth)
    (hscan : scan text = .ok (.constant d, [])) : IsDatumText depth text := by
  rw [IsDatumText, skipAtmosphere_of_scan hscan]
  exact ⟨d, _, readDatum_constant hdepth hscan, .nil⟩

/-- In front of the second item of a list, and behind it. -/
theorem parseProgram_commented_list :
    (∃ ds, parseProgram ("(1 " ++ "2)") = .ok ds ∧
        parseProgram ("(1 " ++ " #|" ++ "; #|" ++ "|# " ++ "2)") = .ok ds ∧
        parseProgram ("(1 " ++ " #;" ++ "#\\;" ++ " " ++ "2)") = .ok ds) ∧
      ∃ e, parseProgram ("(1 2" ++ " #;" ++ "#\\;" ++ " " ++ ")") = .error e := by
  obtain ⟨ds, hds⟩ : ∃ ds, parseProgram ("(1 " ++ "2)") = .ok ds := exists_ok (by decide +kernel)
  obtain ⟨ds', hds'⟩ : ∃ ds, parseProgram ("(1 2" ++ ")") = .ok ds := exists_ok (by decide +kernel)
  have hone : Lexeme [.bracket] ['1'] " 2)".toList [.bracket] :=
    .token (t := .constant (.int 1)) rfl
  have hseam : Seam [] 1 "(1 ".toList "2)".toList :=
    .lexeme (u := ['(']) (.token (t := .list ')') rfl) (.lexeme (u := ['1']) hone
      (.gap (u := [' ']) (.space rfl) (.here [.bracket] _)))
  have htwo : Lexeme [.bracket] ['2'] ")".toList [.bracket] :=
    .token (t := .constant (.int 2)) rfl
  have hseam' : Seam [] 1 "(1 2".toList ")".toList :=
    .lexeme (u := ['(']) (.token (t := .list ')') rfl) (.lexeme (u := ['1']) hone
      (.gap (u := [' ']) (.space rfl) (.lexeme (u := ['2']) htwo (.here [.bracket] _))))
  have hdatum : IsDatumText 1 "#\\;".toList := isDatumText_atom (d := .char ';') (by decide) rfl
  have hspares := parseProgram_commented hseam hds
  refine ⟨⟨ds, hds, hspares.block _ (by decide), hspares.datum _ hdatum ⟨'2', [')'], ?_, rfl⟩⟩,
    (parseProgram_commented hseam' hds').rejected _ hdatum ?_⟩
  · exact skipAtmosphere_cons rfl (by decide) nofun
  · rintro ⟨c, rest, hskip, hnot⟩
    cases (skipAtmosphere_mark (isMark_of_bracket (.inl rfl))).symm.trans hskip
    cases hnot

end HygienicScheme.Reader
