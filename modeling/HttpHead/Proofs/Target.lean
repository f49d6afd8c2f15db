import HttpHead.Target
import Mathlib.Data.List.Infix
import Mathlib.Data.List.TakeWhile

/-! The forms of a target. A text is cut at the first or the last place where a separator stands
(`cut?_eq_some_iff`, `cutLast?_singleton_iff`), and the order in which the forms are tried takes
none from another: each form has the texts that are spelled so (`ofText?_eq_some_iff`). -/
namespace HttpHead

namespace Text

/-- A text with the separator in it, and no place for it further to the front. -/
structure CutsFirst (sep s before behind : List Char) : Prop where
  eq : s = before ++ sep ++ behind
  first : ∀ x y, s = x ++ sep ++ y → before.length ≤ x.length

variable {sep passed s front before behind : List Char} {c : Char}

theorem cutsFirst_prefix_iff :
    CutsFirst sep (sep ++ s) before behind ↔ before = [] ∧ behind = s := by
  constructor
  · intro h
    have hlength : before.length ≤ 0 := h.first [] s rfl
    obtain rfl := List.eq_nil_of_length_eq_zero (Nat.le_zero.1 hlength)
    exact ⟨rfl, (List.append_cancel_left h.eq).symm⟩
  · rintro ⟨rfl, rfl⟩
    exact ⟨rfl, fun x y _ => Nat.zero_le _⟩

theorem cutsFirst_cons_iff (h : ¬sep <+: c :: s) :
    CutsFirst sep (c :: s) before behind ↔
      ∃ more, before = c :: more ∧ CutsFirst sep s more behind := by
  constructor
  · intro hcut
    cases before with
    | nil => exact absurd ⟨behind, hcut.eq.symm⟩ h
    | cons d more =>
      obtain ⟨rfl, hs⟩ := List.cons.inj hcut.eq
      refine ⟨more, rfl, hs, fun x y hxy => ?_⟩
      have hle := hcut.first (c :: x) y (by rw [hxy]; rfl)
      exact Nat.le_of_succ_le_succ hle
  · rintro ⟨more, rfl, hs, hfirst⟩
    refine ⟨by rw [hs]; rfl, fun x y hxy => ?_⟩
    cases x with
    | nil => exact absurd ⟨y, hxy.symm⟩ h
    | cons d x => exact Nat.succ_le_succ (hfirst x y (List.cons.inj hxy).2)

theorem cutFrom?_eq_some_iff (hsep : sep ≠ []) :
    cutFrom? sep passed s = some (front, behind) ↔
      ∃ before, front = passed.reverse ++ before ∧ CutsFirst sep s before behind := by
  induction s generalizing passed with
  | nil =>
    simp only [cutFrom?, reduceCtorEq, false_iff, not_exists, not_and]
    intro before _ h
    exact hsep (List.append_eq_nil_iff.1 (List.append_eq_nil_iff.1 h.eq.symm).1).2
  | cons c s ih =>
    by_cases hfits : sep <+: c :: s
    · obtain ⟨rest, hrest⟩ := hfits
      rw [cutFrom?, if_pos (List.isPrefixOf_iff_prefix.2 ⟨rest, hrest⟩), ← hrest,
        List.drop_left]
      simp only [cutsFirst_prefix_iff, Option.some.injEq, Prod.mk.injEq]
      constructor
      · rintro ⟨rfl, rfl⟩
        exact ⟨[], (List.append_nil _).symm, rfl, rfl⟩
      · rintro ⟨before, rfl, rfl, rfl⟩
        exact ⟨(List.append_nil _).symm, rfl⟩
    · rw [cutFrom?, if_neg (mt List.isPrefixOf_iff_prefix.1 hfits), ih]
      simp only [cutsFirst_cons_iff hfits, List.reverse_cons, List.append_assoc,
        List.singleton_append]
      constructor
      · rintro ⟨more, rfl, hcut⟩
        exact ⟨c :: more, rfl, more, rfl, hcut⟩
      · rintro ⟨_, rfl, more, rfl, hcut⟩
        exact ⟨more, rfl, hcut⟩

theorem cut?_eq_some_iff (hsep : sep ≠ []) :
    cut? sep s = some (before, behind) ↔ CutsFirst sep s before behind := by
  rw [cut?, cutFrom?_eq_some_iff hsep]
  simp

theorem cutFrom?_eq_none_iff (hsep : sep ≠ []) :
    cutFrom? sep passed s = none ↔ ¬sep <:+: s := by
  induction s generalizing passed with
  | nil => simp [cutFrom?, hsep]
  | cons c s ih =>
    rw [List.infix_cons_iff]
    by_cases hfits : sep <+: c :: s
    · simp [cutFrom?, hfits]
    · rw [cutFrom?, if_neg (mt List.isPrefixOf_iff_prefix.1 hfits), ih]
      simp [hfits]

theorem cut?_eq_none_iff (hsep : sep ≠ []) : cut? sep s = none ↔ ¬sep <:+: s :=
  cutFrom?_eq_none_iff hsep

theorem cutsFirst_singleton_iff :
    CutsFirst [c] s before behind ↔ s = before ++ c :: behind ∧ c ∉ before := by
  constructor
  · intro h
    refine ⟨by simpa using h.eq, fun hc => ?_⟩
    obtain ⟨x, y, rfl⟩ := List.append_of_mem hc
    have hle := h.first x (y ++ c :: behind) (by simpa using h.eq)
    simp only [List.length_append, List.length_cons] at hle
    omega
  · rintro ⟨rfl, hc⟩
    refine ⟨by simp, fun x y hxy => ?_⟩
    apply Nat.le_of_not_lt
    intro hlt
    -- With fewer characters in front, the character stands in what was to be free of it.
    rw [List.append_assoc, List.singleton_append] at hxy
    rcases List.append_eq_append_iff.1 hxy with ⟨more, rfl, -⟩ | ⟨more, rfl, hmore⟩
    · rw [List.length_append] at hlt
      omega
    · cases more with
      | nil => simp at hlt
      | cons d more =>
        obtain ⟨rfl, -⟩ := List.cons.inj hmore
        simp at hc

theorem cut?_singleton_iff :
    cut? [c] s = some (before, behind) ↔ s = before ++ c :: behind ∧ c ∉ before := by
  rw [cut?_eq_some_iff (List.cons_ne_nil c []), cutsFirst_singleton_iff]

/-- The last place of a character is the first one from behind. -/
theorem cutLast?_singleton_iff :
    cutLast? [c] s = some (before, behind) ↔ s = before ++ c :: behind ∧ c ∉ behind := by
  have hreverse (x y : List Char) : s.reverse = x ++ c :: y ↔ s = y.reverse ++ c :: x.reverse := by
    rw [List.reverse_eq_iff]
    simp
  simp only [cutLast?, List.reverse_singleton, Option.map_eq_some_iff, Prod.exists,
    cut?_singleton_iff, hreverse, Prod.mk.injEq]
  constructor
  · rintro ⟨x, y, ⟨hs, hc⟩, rfl, rfl⟩
    exact ⟨hs, by rwa [List.mem_reverse]⟩
  · rintro ⟨hs, hc⟩
    exact ⟨behind.reverse, before.reverse, ⟨by simpa using hs, by rwa [List.mem_reverse]⟩,
      List.reverse_reverse _, List.reverse_reverse _⟩

end Text

namespace Target

variable {t u path query : String}

/-- A path that begins with a slash, and behind the first question mark the query. -/
structure SpelledOrigin (t path query : String) : Prop where
  slash : ∃ more, path = "/" ++ more
  path_free : '?' ∉ path.toList
  eq : t = path ∧ query = "" ∨ t = path ++ "?" ++ query

/-- A scheme and a rest, with the first colon and two slashes between them. -/
def SpelledAbsolute (t : String) : Prop :=
  ∃ scheme rest : String, t = scheme ++ "://" ++ rest ∧
    (∀ x y, t = x ++ "://" ++ y → scheme.length ≤ x.length) ∧ scheme ≠ "" ∧
    (∀ c ∈ scheme.toList, c.isAlphanum ∨ c = '+' ∨ c = '-' ∨ c = '.') ∧ rest ≠ ""

/-- A host and the number of a service, without a colon and two slashes. -/
def SpelledAuthority (t : String) : Prop :=
  (∀ x y, t ≠ x ++ "://" ++ y) ∧
  ∃ host number : String, t = host ++ ":" ++ number ∧ number ≠ "" ∧
    (∀ c ∈ number.toList, c.isDigit) ∧ host ≠ "" ∧ '/' ∉ host.toList

theorem eq_append_iff {a b c : String} :
    t = a ++ b ++ c ↔ t.toList = a.toList ++ b.toList ++ c.toList := by
  rw [← String.toList_inj, String.toList_append, String.toList_append]

theorem isSchemeChar_iff {c : Char} :
    isSchemeChar c ↔ c.isAlphanum ∨ c = '+' ∨ c = '-' ∨ c = '.' := by
  simp [isSchemeChar, or_assoc]

theorem isAbsolute_iff {scheme rest : List Char} :
    isAbsolute scheme rest ↔ scheme ≠ [] ∧ rest ≠ [] ∧ ∀ c ∈ scheme, isSchemeChar c := by
  simp [isAbsolute, and_assoc]

theorem isAuthority_iff {host number : List Char} :
    isAuthority host number ↔
      host ≠ [] ∧ '/' ∉ host ∧ number ≠ [] ∧ ∀ c ∈ number, c.isDigit := by
  simp [isAuthority, and_assoc]

theorem toList_ne_nil_iff : t.toList ≠ [] ↔ t ≠ "" := by
  rw [Ne, String.toList_eq_nil_iff]

theorem spelledAbsolute_iff :
    SpelledAbsolute t ↔ ∃ scheme rest, Text.cut? [':', '/', '/'] t.toList = some (scheme, rest) ∧
      isAbsolute scheme rest := by
  simp only [Text.cut?_eq_some_iff (List.cons_ne_nil _ _)]
  constructor
  · rintro ⟨scheme, rest, ht, hfirst, hscheme, hchars, hrest⟩
    refine ⟨scheme.toList, rest.toList, ⟨eq_append_iff.1 ht, fun x y hxy => ?_⟩, ?_⟩
    · have hle := hfirst (.ofList x) (.ofList y) (eq_append_iff.2 (by simpa using hxy))
      rwa [String.length_ofList, ← String.length_toList] at hle
    · rw [isAbsolute_iff, toList_ne_nil_iff, toList_ne_nil_iff]
      exact ⟨hscheme, hrest, fun c hc => isSchemeChar_iff.2 (hchars c hc)⟩
  · rintro ⟨scheme, rest, ⟨ht, hfirst⟩, habsolute⟩
    obtain ⟨hscheme, hrest, hchars⟩ := isAbsolute_iff.1 habsolute
    refine ⟨.ofList scheme, .ofList rest, eq_append_iff.2 (by simpa using ht), ?_, ?_, ?_, ?_⟩
    · intro x y hxy
      have hle := hfirst x.toList y.toList (eq_append_iff.1 hxy)
      rwa [String.length_toList, ← String.length_ofList] at hle
    · rwa [← toList_ne_nil_iff, String.toList_ofList]
    · rw [String.toList_ofList]
      exact fun c hc => isSchemeChar_iff.1 (hchars c hc)
    · rwa [← toList_ne_nil_iff, String.toList_ofList]

theorem infix_toList_iff {a : String} : a.toList <:+: t.toList ↔ ∃ x y, t = x ++ a ++ y := by
  constructor
  · rintro ⟨x, y, h⟩
    exact ⟨.ofList x, .ofList y, eq_append_iff.2 (by simpa using h.symm)⟩
  · rintro ⟨x, y, h⟩
    exact ⟨x.toList, y.toList, (eq_append_iff.1 h).symm⟩

theorem spelledAuthority_iff :
    SpelledAuthority t ↔ Text.cut? [':', '/', '/'] t.toList = none ∧
      ∃ host number, Text.cutLast? [':'] t.toList = some (host, number) ∧
        isAuthority host number := by
  have hnone : (∀ x y, t ≠ x ++ "://" ++ y) ↔ Text.cut? [':', '/', '/'] t.toList = none := by
    rw [Text.cut?_eq_none_iff (List.cons_ne_nil _ _), show [':', '/', '/'] = "://".toList from rfl,
      infix_toList_iff]
    simp
  simp only [SpelledAuthority, hnone, Text.cutLast?_singleton_iff]
  refine and_congr_right fun _ => ⟨?_, ?_⟩
  · rintro ⟨host, number, ht, hnumber, hdigits, hhost, hslash⟩
    refine ⟨host.toList, number.toList, ⟨by simpa using eq_append_iff.1 ht, ?_⟩, ?_⟩
    · -- A number has no colon in it, so it stands behind the last one.
      intro hcolon
      exact absurd (hdigits ':' hcolon) (by decide)
    · rw [isAuthority_iff, toList_ne_nil_iff, toList_ne_nil_iff]
      exact ⟨hhost, hslash, hnumber, hdigits⟩
  · rintro ⟨host, number, ⟨ht, -⟩, hauthority⟩
    obtain ⟨hhost, hslash, hnumber, hdigits⟩ := isAuthority_iff.1 hauthority
    refine ⟨.ofList host, .ofList number, eq_append_iff.2 (by simpa using ht), ?_⟩
    rw [← toList_ne_nil_iff, ← toList_ne_nil_iff, String.toList_ofList, String.toList_ofList]
    exact ⟨hnumber, hdigits, hhost, hslash⟩

theorem originOf_eq_iff {s : List Char} :
    originOf s = origin path query ↔ '?' ∉ path.toList ∧
      (s = path.toList ∧ query = "" ∨ s = path.toList ++ '?' :: query.toList) := by
  rw [originOf]
  cases hcut : Text.cut? ['?'] s with
  | none =>
    rw [Text.cut?_eq_none_iff (List.cons_ne_nil _ _), List.singleton_infix_iff] at hcut
    rw [origin.injEq]
    constructor
    · rintro ⟨rfl, rfl⟩
      rw [String.toList_ofList]
      exact ⟨hcut, .inl ⟨rfl, rfl⟩⟩
    · rintro ⟨-, ⟨rfl, rfl⟩ | rfl⟩
      · exact ⟨String.ofList_toList, rfl⟩
      · simp at hcut
  | some parts =>
    obtain ⟨before, behind⟩ := parts
    obtain ⟨hs, hbefore⟩ := Text.cut?_singleton_iff.1 hcut
    rw [origin.injEq]
    constructor
    · rintro ⟨rfl, rfl⟩
      rw [String.toList_ofList, String.toList_ofList]
      exact ⟨hbefore, .inr hs⟩
    · rintro ⟨hpath, ⟨rfl, rfl⟩ | hquery⟩
      · simp [hs] at hpath
      · have hsame := hcut.symm.trans (Text.cut?_singleton_iff.2 ⟨hquery, hpath⟩)
        obtain ⟨rfl, rfl⟩ := Prod.mk.inj (Option.some.inj hsame)
        exact ⟨String.ofList_toList, String.ofList_toList⟩

theorem exists_originOf_eq (s : List Char) : ∃ path query, originOf s = origin path query := by
  rw [originOf]
  cases Text.cut? ['?'] s with
  | none => exact ⟨_, _, rfl⟩
  | some parts => exact ⟨_, _, rfl⟩

theorem head?_eq_slash_iff : t.toList.head? = some '/' ↔ ∃ more, t = "/" ++ more := by
  rw [List.head?_eq_some_iff]
  constructor
  · rintro ⟨more, h⟩
    refine ⟨.ofList more, ?_⟩
    rw [← String.toList_inj, h, String.toList_append, String.toList_ofList, String.toList_ofList]
    rfl
  · rintro ⟨more, rfl⟩
    exact ⟨more.toList, by rw [String.toList_append]; rfl⟩

def Spelled (t : String) : Target → Prop
  | asterisk => t = "*"
  | origin path query => SpelledOrigin t path query
  | absolute u => u = t ∧ SpelledAbsolute t
  | authority u => u = t ∧ SpelledAuthority t

def Plain (t : String) : Prop := t ≠ "*" ∧ t.toList.head? ≠ some '/'

theorem SpelledOrigin.head?_eq (h : SpelledOrigin t path query) : t.toList.head? = some '/' := by
  obtain ⟨more, rfl⟩ := h.slash
  rcases h.eq with ⟨rfl, -⟩ | rfl
  · exact head?_eq_slash_iff.2 ⟨more, rfl⟩
  · exact head?_eq_slash_iff.2 ⟨more ++ "?" ++ query, by simp only [String.append_assoc]⟩

theorem plain_of_append {front behind : List Char} (h : t.toList = front ++ ':' :: behind)
    (hfront : front ≠ []) (hslash : '/' ∉ front) : Plain t := by
  refine ⟨?_, ?_⟩
  · rintro rfl
    have hmem : ':' ∈ "*".toList := by simp [h]
    exact absurd hmem (by decide)
  · rw [h, List.head?_append_of_ne_nil _ hfront]
    intro hhead
    exact hslash (List.mem_of_mem_head? hhead)

theorem SpelledAbsolute.plain (h : SpelledAbsolute t) : Plain t := by
  obtain ⟨scheme, rest, hcut, habsolute⟩ := spelledAbsolute_iff.1 h
  obtain ⟨hscheme, -, hchars⟩ := isAbsolute_iff.1 habsolute
  have ht := ((Text.cut?_eq_some_iff (List.cons_ne_nil _ _)).1 hcut).eq
  refine plain_of_append (by simpa using ht) hscheme ?_
  intro hslash
  exact absurd (hchars '/' hslash) (by decide)

theorem SpelledAuthority.plain (h : SpelledAuthority t) : Plain t := by
  obtain ⟨-, host, number, hcut, hauthority⟩ := spelledAuthority_iff.1 h
  obtain ⟨hhost, hslash, -⟩ := isAuthority_iff.1 hauthority
  exact plain_of_append (Text.cutLast?_singleton_iff.1 hcut).1 hhost hslash

theorem ofText?_of_slash (h : t.toList.head? = some '/') :
    ofText? t = some (originOf t.toList) := by
  have hstar : (t.toList == ['*']) = false := by
    rw [beq_eq_false_iff_ne]
    intro heq
    rw [heq] at h
    cases h
  simp [ofText?, hstar, h]

theorem ofText?_of_plain (h : Plain t) {target : Target} :
    ofText? t = some target ↔
      target = absolute t ∧ SpelledAbsolute t ∨ target = authority t ∧ SpelledAuthority t := by
  have hstar : ¬t.toList = ['*'] := fun heq => h.1 (String.toList_inj.1 heq)
  simp only [ofText?, beq_iff_eq, hstar, h.2, if_false, spelledAbsolute_iff, spelledAuthority_iff]
  cases Text.cut? [':', '/', '/'] t.toList with
  | some parts =>
    obtain ⟨scheme, rest⟩ := parts
    cases hform : isAbsolute scheme rest with
    | false => simp [hform]
    | true => simpa [hform] using eq_comm
  | none =>
    cases Text.cutLast? [':'] t.toList with
    | none => simp
    | some parts =>
      obtain ⟨host, number⟩ := parts
      cases hform : isAuthority host number with
      | false => simp [hform]
      | true => simpa [hform] using eq_comm

theorem spelledOrigin_iff :
    SpelledOrigin t path query ↔
      t.toList.head? = some '/' ∧ originOf t.toList = origin path query := by
  rw [originOf_eq_iff]
  constructor
  · intro h
    refine ⟨h.head?_eq, h.path_free, h.eq.imp (fun ht => ⟨by rw [ht.1], ht.2⟩) fun ht => ?_⟩
    simpa using eq_append_iff.1 ht
  · rintro ⟨hslash, hfree, heq⟩
    have hpath : path.toList.head? = some '/' := by
      rcases heq with ⟨ht, -⟩ | ht
      · rwa [← ht]
      · rw [ht] at hslash
        cases hnil : path.toList with
        | nil => simp [hnil] at hslash
        | cons c more => simpa [hnil] using hslash
    refine ⟨head?_eq_slash_iff.1 hpath, hfree,
      heq.imp (fun ht => ⟨String.toList_inj.1 ht.1, ht.2⟩) fun ht => ?_⟩
    exact eq_append_iff.2 (by simpa using ht)

theorem spelled_iff {target : Target} :
    Spelled t target ↔ target = asterisk ∧ t = "*" ∨
      t.toList.head? = some '/' ∧ originOf t.toList = target ∨
      target = absolute t ∧ SpelledAbsolute t ∨ target = authority t ∧ SpelledAuthority t := by
  obtain ⟨p, q, horigin⟩ := exists_originOf_eq t.toList
  cases target with
  | asterisk => simp [Spelled, horigin]
  | origin path query => simp [Spelled, spelledOrigin_iff]
  | absolute u => simp [Spelled, horigin]
  | authority u => simp [Spelled, horigin]

theorem ofText?_eq_some_iff {target : Target} : ofText? t = some target ↔ Spelled t target := by
  rw [spelled_iff]
  by_cases hplain : Plain t
  · rw [ofText?_of_plain hplain]
    simp [hplain.1, hplain.2]
  · -- Then the forms that are tried last do not spell the text.
    have habsolute : ¬SpelledAbsolute t := mt SpelledAbsolute.plain hplain
    have hauthority : ¬SpelledAuthority t := mt SpelledAuthority.plain hplain
    by_cases hslash : t.toList.head? = some '/'
    · have hstar : t ≠ "*" := by
        rintro rfl
        exact absurd hslash (by decide)
      rw [ofText?_of_slash hslash]
      simp [hstar, hslash, habsolute, hauthority]
    · obtain rfl : t = "*" := by
        by_contra hstar
        exact hplain ⟨hstar, hslash⟩
      have hform : ofText? "*" = some asterisk := rfl
      rw [hform]
      simpa [habsolute, hauthority] using eq_comm

theorem SpelledOrigin.path_eq (h : SpelledOrigin t path query) :
    path = .ofList (t.toList.takeWhile (· ≠ '?')) := by
  have hfree : ∀ c ∈ path.toList, decide (c ≠ '?') = true := by
    intro c hc
    rw [decide_eq_true_eq]
    rintro rfl
    exact h.path_free hc
  rcases h.eq with ⟨rfl, -⟩ | ht
  · rw [List.takeWhile_eq_self_iff.2 hfree, String.ofList_toList]
  · have hstop : ("?".toList ++ query.toList).takeWhile (fun c => decide (c ≠ '?')) = [] := rfl
    rw [eq_append_iff.1 ht, List.append_assoc, List.takeWhile_append_of_pos hfree, hstop,
      List.append_nil, String.ofList_toList]

theorem exists_origin_iff :
    (∃ path query, ofText? t = some (origin path query)) ↔ ∃ more, t = "/" ++ more := by
  simp only [ofText?_eq_some_iff, Spelled, spelledOrigin_iff, exists_and_left]
  rw [head?_eq_slash_iff]
  exact and_iff_left (exists_originOf_eq t.toList)

theorem ofText?_eq_none_iff :
    ofText? t = none ↔
      t ≠ "*" ∧ (∀ more, t ≠ "/" ++ more) ∧ ¬SpelledAbsolute t ∧ ¬SpelledAuthority t := by
  have hslash : (∀ more, t ≠ "/" ++ more) ↔ ¬t.toList.head? = some '/' := by
    rw [head?_eq_slash_iff, not_exists]
  rw [Option.eq_none_iff_forall_ne_some, hslash]
  simp only [Ne, ofText?_eq_some_iff, spelled_iff, not_or]
  constructor
  · intro h
    exact ⟨fun hstar => (h asterisk).1 ⟨rfl, hstar⟩,
      fun hhead => (h (originOf t.toList)).2.1 ⟨hhead, rfl⟩,
      fun habsolute => (h (absolute t)).2.2.1 ⟨rfl, habsolute⟩,
      fun hauthority => (h (authority t)).2.2.2 ⟨rfl, hauthority⟩⟩
  · rintro ⟨hstar, hhead, habsolute, hauthority⟩ target
    exact ⟨fun h => hstar h.2, fun h => hhead h.1, fun h => habsolute h.2, fun h => hauthority h.2⟩

/-- The asterisk, a leading slash, the first colon with two slashes and the last colon tell the form
of a text, each where the ones before it do not. A path and a query make up the text again, and the
other forms keep all of it. -/
theorem form_exact (t : String) :
    (ofText? t = some asterisk ↔ t = "*") ∧
    ((∃ path query, ofText? t = some (origin path query)) ↔ ∃ more, t = "/" ++ more) ∧
    (∀ path query, ofText? t = some (origin path query) ↔ SpelledOrigin t path query) ∧
    (∀ u, ofText? t = some (absolute u) ↔ u = t ∧ SpelledAbsolute t) ∧
    (∀ u, ofText? t = some (authority u) ↔ u = t ∧ SpelledAuthority t) ∧
    (ofText? t = none ↔
      t ≠ "*" ∧ (∀ more, t ≠ "/" ++ more) ∧ ¬SpelledAbsolute t ∧ ¬SpelledAuthority t) ∧
    ∀ target, ofText? t = some target →
      match target with
      | origin .. => target.text = .ofList (t.toList.takeWhile (· ≠ '?'))
      | absolute _ | authority _ | asterisk => target.text = t := by
  refine ⟨ofText?_eq_some_iff, exists_origin_iff, fun path query => ofText?_eq_some_iff,
    fun u => ofText?_eq_some_iff, fun u => ofText?_eq_some_iff, ofText?_eq_none_iff, ?_⟩
  intro target htarget
  have hspelled := ofText?_eq_some_iff.1 htarget
  cases target with
  | origin path query => exact SpelledOrigin.path_eq hspelled
  | absolute u => exact hspelled.1
  | authority u => exact hspelled.1
  | asterisk => exact hspelled.symm

example : ofText? "/a?b?c" = some (origin "/a" "b?c") ∧
    ofText? "a:b:80" = some (authority "a:b:80") ∧ ofText? "a/b:80" = none ∧
    ofText? "a://b:80" = some (absolute "a://b:80") ∧ ofText? "a:://b" = none := by
  decide +kernel

end Target

end HttpHead
