import HttpHead.Stream.Head
import Mathlib.Algebra.GroupWithZero.Nat
import Mathlib.Data.List.Infix

/-! Where a head that is read from a stream ends. `Octets.headOf` says it of the whole text at
once, by its lines; the reader finds it octet by octet, however the text comes in chunks. -/
namespace HttpHead

namespace Octets

def isEmptyLine (line : Octets) : Bool := line == [] || line == [Octet.cr]

/-- The text ends with an empty line, and a line before that is not empty. -/
def endsHead (text : Octets) : Bool :=
  match (text.splitOn Octet.lf).reverse with
  | [] :: last :: before => isEmptyLine last && before.any (!isEmptyLine ·)
  | _ => false

def firstHead? (text : Octets) : Option Octets := text.inits.find? endsHead

/-- The part in front that is read as a head: the whole text if nothing in it ends a head. -/
def headOf (text : Octets) : Octets := (firstHead? text).getD text

def Headless (text : Octets) : Prop := ∀ front, front <+: text → endsHead front = false

variable {text : Octets} {lines : List Octets} {line : Octets} {b : UInt8}

theorem exists_splitOn_eq (text : Octets) :
    ∃ (lines : List Octets) (line : Octets), text.splitOn Octet.lf = lines ++ [line] := by
  have hne := List.splitOn_ne_nil Octet.lf text
  exact ⟨_, _, (List.dropLast_concat_getLast hne).symm⟩

theorem splitOn_concat_lf (h : text.splitOn Octet.lf = lines ++ [line]) :
    (text ++ [Octet.lf]).splitOn Octet.lf = lines ++ [line] ++ [[]] := by
  rw [List.splitOn_append_cons_self, h]
  rfl

theorem splitOn_concat (hb : b ≠ Octet.lf) (h : text.splitOn Octet.lf = lines ++ [line]) :
    (text ++ [b]).splitOn Octet.lf = lines ++ [line ++ [b]] := by
  induction text generalizing lines line with
  | nil =>
    have hempty : [] ++ [[]] = lines ++ [line] := h
    obtain ⟨hlines, hline⟩ := List.append_inj' hempty rfl
    rw [← hlines, ← (List.cons.inj hline).1, List.splitOn_eq_singleton (by simpa using hb.symm)]
    rfl
  | cons a text ih =>
    obtain ⟨before, last, hsplit⟩ := exists_splitOn_eq text
    rw [List.cons_append, List.splitOn_cons_eq_if_modifyHead, ih hsplit]
    rw [List.splitOn_cons_eq_if_modifyHead, hsplit] at h
    by_cases ha : a == Octet.lf
    · rw [if_pos ha, ← List.cons_append] at h ⊢
      obtain ⟨hlines, hline⟩ := List.append_inj' h rfl
      rw [hlines, (List.cons.inj hline).1]
    · rw [if_neg ha] at h ⊢
      cases before with
      | nil =>
        have hfirst : [] ++ [a :: last] = lines ++ [line] := h
        obtain ⟨hlines, hline⟩ := List.append_inj' hfirst rfl
        rw [← hlines, ← (List.cons.inj hline).1]
        rfl
      | cons first before =>
        have hfirst : ((a :: first) :: before) ++ [last] = lines ++ [line] := h
        obtain ⟨hlines, hline⟩ := List.append_inj' hfirst rfl
        rw [← hlines, (List.cons.inj hline).1]
        rfl

theorem exists_mem_splitOn {b : UInt8} (hmem : b ∈ text) (hb : b ≠ Octet.lf) :
    ∃ line ∈ text.splitOn Octet.lf, b ∈ line := by
  induction text using List.reverseRecOn with
  | nil => cases hmem
  | append_singleton text a ih =>
    obtain ⟨lines, line, hsplit⟩ := exists_splitOn_eq text
    by_cases ha : a = Octet.lf
    · subst ha
      have htext : b ∈ text := (List.mem_append.1 hmem).resolve_right (by simpa using hb)
      obtain ⟨found, hfound, hin⟩ := ih htext
      rw [splitOn_concat_lf hsplit, ← hsplit]
      exact ⟨found, List.mem_append_left _ hfound, hin⟩
    · rw [splitOn_concat ha hsplit]
      cases List.mem_append.1 hmem with
      | inl htext =>
        obtain ⟨found, hfound, hin⟩ := ih htext
        rw [hsplit, List.mem_append, List.mem_singleton] at hfound
        cases hfound with
        | inl hfound => exact ⟨found, List.mem_append_left _ hfound, hin⟩
        | inr hfound => exact ⟨line ++ [a], by simp, by simp [← hfound, hin]⟩
      | inr hlast => exact ⟨line ++ [a], by simp, List.mem_append_right _ hlast⟩

theorem eq_append_lf_of_splitOn {lines : List Octets} {line : Octets}
    (h : text.splitOn Octet.lf = lines ++ [line]) (hlines : lines ≠ []) :
    ∃ front, text = front ++ Octet.lf :: line := by
  induction text using List.reverseRecOn generalizing line with
  | nil =>
    have hempty : [] ++ [[]] = lines ++ [line] := h
    obtain ⟨hnil, -⟩ := List.append_inj' hempty rfl
    exact absurd hnil.symm hlines
  | append_singleton text b ih =>
    obtain ⟨before, last, hsplit⟩ := exists_splitOn_eq text
    by_cases hb : b = Octet.lf
    · subst hb
      obtain ⟨-, hline⟩ := List.append_inj' ((splitOn_concat_lf hsplit).symm.trans h) rfl
      exact ⟨text, by rw [← (List.cons.inj hline).1]⟩
    · obtain ⟨hbefore, hline⟩ := List.append_inj' ((splitOn_concat hb hsplit).symm.trans h) rfl
      subst hbefore
      obtain ⟨front, htext⟩ := ih hsplit
      exact ⟨front, by rw [← (List.cons.inj hline).1, htext]; simp⟩

theorem endsHead_concat_lf (h : text.splitOn Octet.lf = lines ++ [line]) :
    endsHead (text ++ [Octet.lf]) = (isEmptyLine line && lines.any (!isEmptyLine ·)) := by
  rw [endsHead, splitOn_concat_lf h, List.reverse_append, List.reverse_append]
  change (isEmptyLine line && lines.reverse.any (!isEmptyLine ·)) = _
  rw [List.any_reverse]

theorem endsHead_concat (hb : b ≠ Octet.lf) : endsHead (text ++ [b]) = false := by
  obtain ⟨lines, line, h⟩ := exists_splitOn_eq text
  rw [endsHead, splitOn_concat hb h, List.reverse_append]
  cases line with
  | nil => rfl
  | cons a line => rfl

theorem endsHead_crlf_append (text : Octets) :
    endsHead (Octet.cr :: Octet.lf :: text) = endsHead text := by
  have hsplit : (Octet.cr :: Octet.lf :: text).splitOn Octet.lf =
      [Octet.cr] :: text.splitOn Octet.lf := by
    exact List.splitOn_append_cons_self [Octet.cr] text
  rw [endsHead, endsHead, hsplit, List.reverse_cons]
  cases (text.splitOn Octet.lf).reverse with
  | nil => rfl
  | cons last before =>
    cases before with
    | nil => cases last <;> rfl
    | cons line before =>
      cases last with
      | nil =>
        change (isEmptyLine line && (before ++ [[Octet.cr]]).any (!isEmptyLine ·)) = _
        rw [List.any_append]
        simp [isEmptyLine]
      | cons b last => rfl

theorem headless_nil : Headless [] := by
  intro front hfront
  rw [List.prefix_nil.1 hfront]
  rfl

theorem headless_concat_iff :
    Headless (text ++ [b]) ↔ Headless text ∧ endsHead (text ++ [b]) = false := by
  constructor
  · intro h
    refine ⟨fun front hfront => h front (hfront.trans (List.prefix_append ..)), h _ ?_⟩
    exact List.prefix_refl _
  · intro h front hfront
    cases List.prefix_concat_iff.1 hfront with
    | inl heq => rw [heq]; exact h.2
    | inr hfront => exact h.1 front hfront

/-- Either nothing in a text ends a head, or one of its octets is the first to do so. -/
theorem firstHead?_cases (text : Octets) :
    (text.Headless ∧ firstHead? text = none) ∨
      ∃ (front : Octets) (b : UInt8) (rest : Octets), text = front ++ b :: rest ∧
        front.Headless ∧ endsHead (front ++ [b]) ∧ firstHead? text = some (front ++ [b]) := by
  induction text using List.reverseRecOn with
  | nil => exact .inl ⟨headless_nil, rfl⟩
  | append_singleton text b ih =>
    have hinits : firstHead? (text ++ [b]) =
        (firstHead? text).or ([text ++ [b]].find? endsHead) := by
      rw [firstHead?, List.inits_append, List.find?_append]
      rfl
    obtain ⟨hless, hnone⟩ | ⟨front, a, rest, htext, hless, hends, hsome⟩ := ih
    · rw [hinits, hnone, Option.none_or, List.find?_singleton]
      cases hends : endsHead (text ++ [b]) with
      | false => exact .inl ⟨headless_concat_iff.2 ⟨hless, hends⟩, rfl⟩
      | true => exact .inr ⟨text, b, [], rfl, hless, hends, rfl⟩
    · rw [hinits, hsome, Option.some_or, htext]
      exact .inr ⟨front, a, rest ++ [b], by simp, hless, hends, rfl⟩

theorem headOf_cases (text : Octets) :
    (text.Headless ∧ headOf text = text) ∨
      ∃ (front : Octets) (b : UInt8) (rest : Octets), text = front ++ b :: rest ∧
        front.Headless ∧ endsHead (front ++ [b]) ∧ headOf text = front ++ [b] := by
  obtain ⟨hless, hnone⟩ | ⟨front, b, rest, htext, hless, hends, hsome⟩ := firstHead?_cases text
  · exact .inl ⟨hless, by rw [headOf, hnone]; rfl⟩
  · exact .inr ⟨front, b, rest, htext, hless, hends, by rw [headOf, hsome]; rfl⟩

theorem Headless.of_prefix {front : Octets} (h : text.Headless) (hfront : front <+: text) :
    front.Headless :=
  fun front' hfront' => h front' (hfront'.trans hfront)

theorem headless_take_of_lt {n : Nat} (h : n < (headOf text).length) :
    Headless (text.take n) ∧ n < text.length := by
  obtain ⟨hless, hhead⟩ | ⟨front, b, rest, htext, hless, -, hhead⟩ := headOf_cases text
  · rw [hhead] at h
    exact ⟨hless.of_prefix (List.take_prefix n text), h⟩
  · rw [hhead, List.length_append, List.length_singleton] at h
    have hle : n ≤ front.length := by omega
    rw [htext, List.take_append_of_le_length hle]
    refine ⟨hless.of_prefix (List.take_prefix n front), ?_⟩
    rw [List.length_append, List.length_cons]
    omega

theorem eq_headOf_append (text : Octets) :
    ∃ rest, text = headOf text ++ rest ∧ (rest = [] ∨ endsHead (headOf text)) := by
  obtain ⟨-, hhead⟩ | ⟨front, b, rest, htext, -, hends, hhead⟩ := headOf_cases text
  · exact ⟨[], by rw [hhead, List.append_nil], .inl rfl⟩
  · exact ⟨rest, by rw [hhead, List.append_assoc]; exact htext, .inr (by rw [hhead]; exact hends)⟩

theorem length_headOf_le {front : Octets} (hfront : front <+: text) (hends : endsHead front) :
    (headOf text).length ≤ front.length := by
  by_contra hlt
  obtain ⟨hless, -⟩ := headless_take_of_lt (Nat.not_le.1 hlt)
  have htake : front = text.take front.length := List.prefix_iff_eq_take.1 hfront
  have hno := hless front (by rw [← htake])
  simp [hends] at hno

end Octets

namespace LineState

open Octets

def of (line : Octets) : LineState :=
  if line = [] then fresh else if line = [Octet.cr] then afterCr else text

theorem isEmpty_of (line : Octets) : (of line).isEmpty = isEmptyLine line := by
  unfold of isEmptyLine
  by_cases hnil : line = []
  · simp [hnil, isEmpty]
  · by_cases hcr : line = [Octet.cr] <;> simp [hnil, hcr, isEmpty]

theorem push_of (line : Octets) (b : UInt8) : (of line).push b = of (line ++ [b]) := by
  unfold of push
  by_cases hnil : line = []
  · by_cases hb : b = Octet.cr <;> simp [hnil, hb]
  · by_cases hcr : line = [Octet.cr] <;> simp [hnil, hcr, List.append_eq_singleton_iff]

end LineState

namespace Stream

theorem octets_cons (event : Event) (stream : Stream) :
    Stream.octets (event :: stream) = event.octets ++ stream.octets := rfl

theorem octets_chunks (chunks : List Octets) (tail : Stream) :
    Stream.octets (chunks.map .data ++ tail) = chunks.flatten ++ tail.octets := by
  induction chunks with
  | nil => rfl
  | cons chunk chunks ih =>
    rw [List.flatten_cons, List.append_assoc, ← ih]
    rfl

theorem octets_eofs (ends : Nat) : Stream.octets (List.replicate ends .eof) = [] := by
  rw [Stream.octets, List.flatMap_eq_nil_iff]
  intro event hevent
  rw [List.eq_of_mem_replicate hevent]
  rfl

end Stream

namespace Reading

open Octets

/-- The reading that has gone through these octets and found no end. -/
def after (limit : Nat) (text : Octets) : Reading where
  limit
  room := limit - text.length
  octets := text.reverse
  line := .of ((text.splitOn Octet.lf).getLast (List.splitOn_ne_nil _ _))
  begun := (text.splitOn Octet.lf).dropLast.any (!isEmptyLine ·)

variable {limit : Nat} {text rest : Octets} {b : UInt8}

theorem after_eq {lines : List Octets} {line : Octets}
    (h : text.splitOn Octet.lf = lines ++ [line]) :
    after limit text =
      ⟨limit, limit - text.length, text.reverse, .of line, lines.any (!isEmptyLine ·)⟩ := by
  simp [after, h]

/-- One octet for which there is room: it ends the head, or reading goes on behind it. -/
theorem feed_after (h : text.length < limit) :
    (after limit text).feed b =
      if endsHead (text ++ [b]) then .done (.ok ⟨text ++ [b], false⟩)
      else .more (after limit (text ++ [b])) := by
  obtain ⟨lines, line, hsplit⟩ := exists_splitOn_eq text
  obtain ⟨room, hroom⟩ : ∃ room, limit - text.length = room + 1 :=
    ⟨limit - text.length - 1, by omega⟩
  have hroom' : limit - (text ++ [b]).length = room := by
    rw [List.length_append, List.length_singleton]
    omega
  rw [after_eq hsplit, hroom, feed]
  by_cases hb : b = Octet.lf
  · subst hb
    have hbegun : (lines ++ [line]).any (!isEmptyLine ·) =
        (lines.any (!isEmptyLine ·) || !isEmptyLine line) := by
      rw [List.any_append, List.any_cons, List.any_nil, Bool.or_false]
    rw [endsHead_concat_lf hsplit, after_eq (splitOn_concat_lf hsplit), hroom', hbegun,
      LineState.isEmpty_of]
    cases isEmptyLine line <;> cases lines.any (!isEmptyLine ·) <;>
      simp [LineState.of]
  · rw [endsHead_concat hb, after_eq (splitOn_concat hb hsplit), hroom']
    simp [hb, LineState.push_of]

theorem feed_after_full (h : text.length = limit) :
    (after limit text).feed b = .done (.error (.malformed .headerTooLarge limit)) := by
  have hroom : (after limit text).room = 0 := Nat.sub_eq_zero_of_le h.ge
  rw [feed, hroom]
  rfl

theorem feedAll_append (r : Reading) (text more : Octets) :
    r.feedAll (text ++ more) =
      match r.feedAll text with
      | (.more r, _) => r.feedAll more
      | (.done result, unread) => (.done result, unread ++ more) := by
  induction text generalizing r with
  | nil => rfl
  | cons b text ih =>
    rw [List.cons_append, feedAll, feedAll]
    cases r.feed b with
    | more r => exact ih r
    | done result => rfl

theorem feedAll_of_headless (hless : text.Headless) (hfits : text.length ≤ limit) :
    (start limit).feedAll text = (.more (after limit text), []) := by
  induction text using List.reverseRecOn with
  | nil => rfl
  | append_singleton text b ih =>
    obtain ⟨hless, hends⟩ := headless_concat_iff.1 hless
    rw [List.length_append, List.length_singleton] at hfits
    rw [feedAll_append, ih hless (by omega)]
    simp only [feedAll]
    rw [feed_after hfits, hends, if_neg Bool.false_ne_true]

theorem feedAll_of_endsHead (hless : text.Headless) (hends : endsHead (text ++ [b]))
    (hfits : text.length < limit) :
    (start limit).feedAll (text ++ b :: rest) = (.done (.ok ⟨text ++ [b], false⟩), rest) := by
  rw [feedAll_append, feedAll_of_headless hless hfits.le]
  simp only [feedAll]
  rw [feed_after hfits, if_pos hends]

theorem feedAll_of_full (hless : text.Headless) (hfull : text.length = limit) :
    (start limit).feedAll (text ++ b :: rest) =
      (.done (.error (.malformed .headerTooLarge limit)), rest) := by
  rw [feedAll_append, feedAll_of_headless hless hfull.le]
  simp only [feedAll]
  rw [feed_after_full hfull]

theorem finish_cons {event : Event} (h : event.interrupts = false) (r : Reading)
    (stream : Stream) :
    r.finish (event :: stream) =
      match r.meet event with
      | (.more r, _) => r.finish stream
      | (.done result, unread) => (result, .data unread :: stream) := by
  rw [finish, h]
  rfl

theorem finish_cons_of_interrupts {event : Event} (h : event.interrupts) (r : Reading)
    (stream : Stream) : r.finish (event :: stream) = r.finish stream := by
  rw [finish, if_pos h]

theorem finish_chunks (r : Reading) (chunks : List Octets) (tail : Stream) :
    match r.feedAll chunks.flatten with
    | (.more r', _) => r.finish (chunks.map .data ++ tail) = r'.finish tail
    | (.done result, unread) =>
      ∃ left : List Octets, r.finish (chunks.map .data ++ tail) = (result, left.map .data ++ tail) ∧
        left.flatten = unread := by
  induction chunks generalizing r with
  | nil => rfl
  | cons chunk chunks ih =>
    rw [List.flatten_cons, feedAll_append, List.map_cons, List.cons_append, finish_cons rfl, meet]
    cases r.feedAll chunk with
    | mk progress unread =>
      cases progress with
      | more r => exact ih r
      | done result => exact ⟨unread :: chunks, rfl, rfl⟩

theorem finish_eofs (r : Reading) (ends : Nat) :
    (r.finish (List.replicate ends .eof)).1 = .ok r.close ∧
      Stream.octets (r.finish (List.replicate ends .eof)).2 = [] := by
  cases ends with
  | zero => exact ⟨rfl, rfl⟩
  | succ ends =>
    refine ⟨rfl, ?_⟩
    exact Stream.octets_eofs ends

/-- Only for the largest word does the sum overflow. -/
theorem toNat_readLimit {r : Reading} (h : r.limit < 2 ^ 64 - 1) :
    r.readLimit.toNat = r.limit - r.octets.length + 1 := by
  simp only [readLimit, UInt64.toNat_add, UInt64.toNat_ofNat', UInt64.toNat_one]
  omega

end Reading

namespace Stream

open Octets

variable {limit : Nat} {chunks : List Octets}

theorem readHead_blocking (hlimit : limit < 2 ^ 64 - 1) (stream : Stream) :
    stream.readHead .blocking limit = (Reading.start limit).finish stream := by
  have hsum : (Reading.start limit).readLimit.toNat = limit + 1 := Reading.toNat_readLimit hlimit
  have hasks : (Reading.start limit).readLimit ≠ 0 := by
    intro hzero
    rw [hzero] at hsum
    cases hsum
  rw [readHead, if_neg hasks]

theorem readHead_of_readLimit_eq_zero (h : (Reading.start limit).readLimit = 0)
    (waiting : Waiting) (stream : Stream) :
    stream.readHead waiting limit = (.ok ⟨[], true⟩, stream) := by
  unfold readHead
  exact if_pos h

theorem readHead_of_le (hlimit : limit < 2 ^ 64 - 1) (ends : Nat)
    (h : (headOf chunks.flatten).length ≤ limit) :
    let outcome := readHead .blocking limit (chunks.map .data ++ List.replicate ends .eof)
    (∃ head, outcome.1 = .ok head ∧ head.octets = headOf chunks.flatten) ∧
      outcome.2.octets = chunks.flatten.drop (headOf chunks.flatten).length := by
  have hchunks := Reading.finish_chunks (.start limit) chunks (List.replicate ends .eof)
  rw [readHead_blocking hlimit]
  obtain ⟨hless, hhead⟩ | ⟨front, b, rest, htext, hless, hends, hhead⟩ :=
    headOf_cases chunks.flatten
  · rw [hhead] at h ⊢
    rw [Reading.feedAll_of_headless hless h] at hchunks
    obtain ⟨hresult, hrest⟩ := Reading.finish_eofs (.after limit chunks.flatten) ends
    refine ⟨⟨_, (congrArg Prod.fst hchunks).trans hresult, List.reverse_reverse _⟩, ?_⟩
    rw [List.drop_length]
    exact (congrArg (fun outcome => octets outcome.2) hchunks).trans hrest
  · rw [hhead] at h ⊢
    rw [List.length_append, List.length_singleton] at h
    rw [htext, Reading.feedAll_of_endsHead hless hends h] at hchunks
    obtain ⟨left, hfinish, hleft⟩ := hchunks
    refine ⟨⟨_, congrArg Prod.fst hfinish, rfl⟩, ?_⟩
    have hsplit : front ++ b :: rest = (front ++ [b]) ++ rest := by simp
    rw [htext, hsplit, List.drop_left, ← hleft, ← List.append_nil left.flatten, ← octets_eofs ends,
      ← octets_chunks]
    exact congrArg (fun outcome => octets outcome.2) hfinish

theorem readHead_of_lt (hlimit : limit < 2 ^ 64 - 1) (ends : Nat)
    (h : limit < (headOf chunks.flatten).length) :
    (readHead .blocking limit (chunks.map .data ++ List.replicate ends .eof)).1 =
      .error (.malformed .headerTooLarge limit) := by
  have hchunks := Reading.finish_chunks (.start limit) chunks (List.replicate ends .eof)
  obtain ⟨hless, hlt⟩ := headless_take_of_lt h
  have hlen : (chunks.flatten.take limit).length = limit := List.length_take_of_le hlt.le
  obtain ⟨b, rest, hdrop⟩ :=
    List.exists_cons_of_ne_nil (List.drop_eq_nil_iff.not.2 (Nat.not_le.2 hlt))
  have hsplit : chunks.flatten = chunks.flatten.take limit ++ b :: rest := by
    rw [← hdrop, List.take_append_drop]
  rw [hsplit, Reading.feedAll_of_full hless hlen] at hchunks
  obtain ⟨left, hfinish, -⟩ := hchunks
  rw [readHead_blocking hlimit]
  exact congrArg Prod.fst hfinish

end Stream

end HttpHead
