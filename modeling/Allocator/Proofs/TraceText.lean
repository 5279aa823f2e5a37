import Allocator.Trace.Reader
import Mathlib

/-! The text of a trace reads back as the trace. Every character a trace's text is made of
is ASCII: the request letters, the blanks between fields, decimal digits and the line feed.
So its bytes are its characters one for one, each line ends at its own line feed, its
UTF-8 decoding is the line, trimming drops only the line feed, and the fields of the line
are the letter and the decimal numerals of the request. Reading the text is then one step
of the reader per request (`next_line`), and the records read are numbered from line 1
whatever lines the trace's own records carried (`parse_render`). -/
namespace Allocator

namespace Request

/-- A request the trace format can carry: a 32-bit identifier and a 64-bit size. -/
def InRange (r : Request) : Prop :=
  r.id < 2 ^ 32 ∧ ∀ s, r.size? = some s → s < 2 ^ 64

end Request

namespace Trace

section Numerals

theorem isBlank_of_printable {c : Char} (h1 : 0x20 < c.toNat) (h2 : c.toNat < 0x7F) :
    Text.isBlank c = false := by
  simp only [Text.isBlank, Text.blankRanges, List.any_cons, List.any_nil]
  simp only [Bool.or_false, Bool.or_eq_false_iff, decide_eq_false_iff_not, not_and, not_le]
  omega

theorem isBlank_of_isDigit {c : Char} (hc : c.isDigit) : Text.isBlank c = false := by
  simp only [Char.isDigit, Bool.and_eq_true, decide_eq_true_eq] at hc
  have h1 : 48 ≤ c.toNat := hc.1
  have h2 : c.toNat ≤ 57 := hc.2
  exact isBlank_of_printable (by omega) (by omega)

/-- A decimal numeral reads back as its number, within any bound above it. -/
theorem parseBounded_toDigits {bound n : Nat} (hn : n < bound) :
    parseBounded bound (Nat.toDigits 10 n) = some n := by
  obtain ⟨c, rest, hcs⟩ : ∃ c rest, Nat.toDigits 10 n = c :: rest :=
    List.exists_cons_of_ne_nil Nat.toDigits_ne_nil
  have hplus : c ≠ '+' := by
    intro h
    have := Nat.isDigit_of_mem_toDigits (b := 10) (n := n) (c := c) (by decide) (by decide)
      (by simp [hcs])
    simp [h] at this
  have hall : (Nat.toDigits 10 n).all Char.isDigit = true :=
    List.all_eq_true.mpr fun _ => Nat.isDigit_of_mem_toDigits (by decide) (by decide)
  have hval : (Nat.toDigits 10 n).foldl (fun v c => 10 * v + (c.toNat - 48)) 0 = n :=
    Nat.ofDigitChars_ten_toDigits
  unfold parseBounded
  rw [hcs] at hall hval ⊢
  split
  · rename_i h
    cases h
    exact absurd rfl hplus
  · simp [hall, hval, hn]

end Numerals

section Fields

/-- A word: a non-empty run of non-blank characters. -/
def Word (w : List Char) : Prop := w ≠ [] ∧ ∀ c ∈ w, Text.isBlank c = false

theorem fieldsFrom_append {w : List Char} (hw : ∀ c ∈ w, Text.isBlank c = false)
    (cur rest : List Char) : fieldsFrom cur (w ++ rest) = fieldsFrom (w.reverse ++ cur) rest := by
  induction w generalizing cur with
  | nil => rfl
  | cons c w ih =>
    have hc := hw c (by simp)
    rw [List.cons_append, fieldsFrom, if_neg (by simp [hc]),
      ih (fun d hd => hw d (by simp [hd])), List.reverse_cons, List.append_assoc,
      List.singleton_append]

/-- Words joined by single blanks split back into the words. -/
theorem fields_intercalate : ∀ {ws : List (List Char)}, (∀ w ∈ ws, Word w) →
    fields ([' '].intercalate ws) = ws
  | [], _ => rfl
  | [w], hws => by
    have hw := hws w (by simp)
    rw [List.intercalate_singleton, fields, ← List.append_nil w, fieldsFrom_append hw.2,
      List.append_nil, List.append_nil, fieldsFrom]
    simp [hw.1]
  | w :: w' :: ws, hws => by
    have hw := hws w (by simp)
    have hrest : fields ([' '].intercalate (w' :: ws)) = w' :: ws :=
      fields_intercalate fun v hv => hws v (by simp [hv])
    rw [List.intercalate_cons_cons, fields, List.append_assoc, fieldsFrom_append hw.2,
      List.append_nil, List.singleton_append, fieldsFrom, if_pos (by decide)]
    simp only [List.isEmpty_reverse, List.isEmpty_iff, hw.1, if_false, List.reverse_reverse]
    exact congrArg (w :: ·) hrest

theorem word_toDigits (n : Nat) : Word (Nat.toDigits 10 n) :=
  ⟨Nat.toDigits_ne_nil, fun _ hc =>
    isBlank_of_isDigit (Nat.isDigit_of_mem_toDigits (by decide) (by decide) hc)⟩

end Fields

section Lines

/-- The fields of a request's line: its letter, its identifier and its size. -/
def words : Request → List (List Char)
  | .acquire id size => [['a'], Nat.toDigits 10 id, Nat.toDigits 10 size]
  | .release id => [['f'], Nat.toDigits 10 id]
  | .resize id size => [['r'], Nat.toDigits 10 id, Nat.toDigits 10 size]

theorem toList_render_eq_words (r : Request) : r.render.toList = [' '].intercalate (words r) := by
  cases r <;> simp [Request.render, words, List.intercalate_cons_cons, String.toList_append] <;> rfl

theorem words_word (r : Request) : ∀ w ∈ words r, Word w := by
  have hl : ∀ c : Char, c = 'a' ∨ c = 'f' ∨ c = 'r' → Word [c] := by
    rintro c (rfl | rfl | rfl) <;>
      exact ⟨by simp, by simpa using isBlank_of_printable (by decide) (by decide)⟩
  cases r <;> simp only [words, List.mem_cons, List.not_mem_nil, or_false] <;>
    rintro w (rfl | rfl | rfl) <;> first | exact hl _ (by simp) | exact word_toDigits _

theorem parseRequest_render {r : Request} (hr : r.InRange) :
    parseRequest r.render.toList = .ok r := by
  obtain ⟨hid, hsize⟩ := hr
  rw [toList_render_eq_words, parseRequest, fields_intercalate (words_word r)]
  cases r <;> simp_all [words, Request.id, Request.size?, parseBounded_toDigits] <;> rfl

/-- Trimming a line whose two ends are not blank drops its line feed and nothing else. -/
theorem trimBlank_append_newline {cs : List Char} {c d : Char} {rest init : List Char}
    (hc : Text.isBlank c = false) (hd : Text.isBlank d = false) (hhead : cs = c :: rest)
    (hlast : cs = init ++ [d]) : trimBlank (cs ++ ['\n']) = cs := by
  have hnl : Text.isBlank '\n' = true := by decide
  have hfront : (cs ++ ['\n']).dropWhile Text.isBlank = cs ++ ['\n'] := by
    rw [hhead, List.cons_append, List.dropWhile_cons_of_neg (by simp [hc])]
  have hback : (cs.reverse).dropWhile Text.isBlank = cs.reverse := by
    rw [hlast, List.reverse_append, List.reverse_singleton, List.singleton_append,
      List.dropWhile_cons_of_neg (by simp [hd])]
  rw [trimBlank, hfront, List.reverse_append, List.reverse_singleton, List.singleton_append,
    List.dropWhile_cons_of_pos (by simp [hnl]), hback, List.reverse_reverse]

/-- A request's line starts with its letter and ends with a digit. -/
theorem render_ends (r : Request) : ∃ c rest init d, Text.isBlank c = false ∧
    Text.isBlank d = false ∧ r.render.toList = c :: rest ∧ r.render.toList = init ++ [d] := by
  have hend : ∀ n, ∃ init d, Text.isBlank d = false ∧ Nat.toDigits 10 n = init ++ [d] := fun n =>
    ⟨_, _, isBlank_of_isDigit
      (Nat.isDigit_of_mem_toDigits (by decide) (by decide) (List.getLast_mem Nat.toDigits_ne_nil)),
      (List.dropLast_append_getLast Nat.toDigits_ne_nil).symm⟩
  rw [toList_render_eq_words]
  cases r with
  | acquire id size =>
    obtain ⟨init, d, hd, hs⟩ := hend size
    simp only [words, List.intercalate_cons_cons, List.intercalate_singleton, hs]
    exact ⟨_, _, 'a' :: ' ' :: (Nat.toDigits 10 id ++ ' ' :: init), d,
      isBlank_of_printable (by decide) (by decide), hd, rfl, by simp⟩
  | resize id size =>
    obtain ⟨init, d, hd, hs⟩ := hend size
    simp only [words, List.intercalate_cons_cons, List.intercalate_singleton, hs]
    exact ⟨_, _, 'r' :: ' ' :: (Nat.toDigits 10 id ++ ' ' :: init), d,
      isBlank_of_printable (by decide) (by decide), hd, rfl, by simp⟩
  | release id =>
    obtain ⟨init, d, hd, hs⟩ := hend id
    simp only [words, List.intercalate_cons_cons, List.intercalate_singleton, hs]
    exact ⟨_, _, 'f' :: ' ' :: init, d, isBlank_of_printable (by decide) (by decide), hd, rfl,
      by simp⟩

theorem trimBlank_render (r : Request) :
    trimBlank (r.render.toList ++ ['\n']) = r.render.toList := by
  obtain ⟨c, rest, init, d, hc, hd, hhead, hlast⟩ := render_ends r
  exact trimBlank_append_newline hc hd hhead hlast

/-- A request's line is ASCII and holds no line feed: letters, blanks and digits. -/
theorem render_ascii (r : Request) : ∀ c ∈ r.render.toList, c.toNat < 0x80 ∧ c ≠ '\n' := by
  have hdigit : ∀ n, ∀ c ∈ Nat.toDigits 10 n, c.toNat < 0x80 ∧ c ≠ '\n' := fun n c hc => by
    have hd := Nat.isDigit_of_mem_toDigits (by decide) (by decide) hc
    simp only [Char.isDigit, Bool.and_eq_true, decide_eq_true_eq] at hd
    have h1 : 48 ≤ c.toNat := hd.1
    have h2 : c.toNat ≤ 57 := hd.2
    exact ⟨by omega, by rintro rfl; simp at h1⟩
  rw [toList_render_eq_words]
  cases r <;> simp only [words, List.intercalate_cons_cons, List.intercalate_singleton,
    List.cons_append, List.nil_append, List.forall_mem_cons, List.forall_mem_append]
  · exact ⟨by decide, by decide, ⟨hdigit _, by decide, by simp⟩, hdigit _⟩
  · exact ⟨by decide, by decide, hdigit _⟩
  · exact ⟨by decide, by decide, ⟨hdigit _, by decide, by simp⟩, hdigit _⟩

end Lines

section Bytes

/-- The bytes of characters taken one for one: the UTF-8 encoding of ASCII text. -/
def asciiBytes (cs : List Char) : ByteArray := (cs.map fun c => UInt8.ofNat c.toNat).toByteArray

@[simp] theorem size_asciiBytes (cs : List Char) : (asciiBytes cs).size = cs.length := by
  simp [asciiBytes]

theorem asciiBytes_append (a b : List Char) :
    asciiBytes (a ++ b) = asciiBytes a ++ asciiBytes b := by
  simp [asciiBytes]

theorem getElem_asciiBytes {cs : List Char} {i : Nat} (h : i < (asciiBytes cs).size)
    (hi : i < cs.length) : (asciiBytes cs)[i] = UInt8.ofNat cs[i].toNat := by
  simp [asciiBytes]

/-- ASCII text is encoded one byte per character. -/
theorem toByteArray_ofList_ascii {cs : List Char} (h : ∀ c ∈ cs, c.toNat < 0x80) :
    (String.ofList cs).toByteArray = asciiBytes cs := by
  rw [String.toByteArray_ofList, List.utf8Encode, asciiBytes]
  congr 1
  induction cs with
  | nil => rfl
  | cons c cs ih =>
    have hc : c.toNat ≤ 0x7f := by have := h c (by simp); omega
    rw [List.flatMap_cons, ih fun d hd => h d (by simp [hd]), List.map_cons]
    simp [String.utf8EncodeChar, hc]

theorem fromUTF8?_asciiBytes {cs : List Char} (h : ∀ c ∈ cs, c.toNat < 0x80) :
    String.fromUTF8? (asciiBytes cs) = some (String.ofList cs) := by
  rw [← toByteArray_ofList_ascii h, String.fromUTF8?, dif_pos (String.ofList cs).isValidUTF8]
  rfl

theorem ofNat_toNat_ne_newline {c : Char} (ha : c.toNat < 0x80) (hn : c ≠ '\n') :
    UInt8.ofNat c.toNat ≠ 10 := by
  intro h
  have h10 : (UInt8.ofNat c.toNat).toNat = 10 := by rw [h]; rfl
  rw [UInt8.toNat_ofNat', Nat.mod_eq_of_lt (by omega)] at h10
  exact hn (Char.toNat_inj.mp h10)

end Bytes

section Reader

/-- A line ends just after the first line feed from where it starts. -/
theorem lineEnd_eq {b : ByteArray} {i k : Nat} (hik : i ≤ k) (hk : k < b.size) (h10 : b[k] = 10)
    (hbefore : ∀ j (hj : j < b.size), i ≤ j → j < k → b[j] ≠ 10) :
    TraceReader.lineEnd b i = k + 1 := by
  fun_induction TraceReader.lineEnd b i with
  | case1 i hi heq =>
    by_contra hne
    exact hbefore i hi le_rfl (by omega) heq
  | case2 i hi hne ih =>
    have hlt : i < k := by
      rcases Nat.lt_or_eq_of_le hik with hlt | rfl
      · exact hlt
      · exact absurd h10 hne
    exact ih hlt (fun j hj h1 h2 => hbefore j hj (by omega) h2)
  | case3 i hi => omega

theorem lineEnd_asciiBytes {p l q : List Char} (hl : ∀ c ∈ l, c.toNat < 0x80 ∧ c ≠ '\n') :
    TraceReader.lineEnd (asciiBytes (p ++ l ++ '\n' :: q)) p.length = p.length + l.length + 1 := by
  refine lineEnd_eq (by omega) (by simp) ?_ fun j hj h1 h2 => ?_
  · rw [getElem_asciiBytes _ (by simp)]
    simp [List.getElem_append_right]
  · have hj' : j < (p ++ l ++ '\n' :: q).length := by simpa using hj
    rw [getElem_asciiBytes _ hj']
    have hjl : j - p.length < l.length := by omega
    have hcs : (p ++ l ++ '\n' :: q)[j] = l[j - p.length] := by
      simp only [List.append_assoc]
      rw [List.getElem_append_right h1, List.getElem_append_left hjl]
    rw [hcs]
    exact ofNat_toNat_ne_newline (hl _ (List.getElem_mem hjl)).1 (hl _ (List.getElem_mem hjl)).2

theorem extract_asciiBytes (p l q : List Char) :
    (asciiBytes (p ++ l ++ q)).extract p.length (p.length + l.length) = asciiBytes l := by
  rw [asciiBytes_append, asciiBytes_append, ByteArray.append_assoc]
  have := ByteArray.extract_append_size_add (a := asciiBytes p) (b := asciiBytes l ++ asciiBytes q)
    (i := 0) (j := l.length)
  simp only [size_asciiBytes, Nat.add_zero] at this
  rw [this, ByteArray.extract_append_eq_left (by simp)]

/-- Reading the line of a request in range, wherever it stands in a text, answers the request
on the next line number, with the reader after the line feed. -/
theorem next_line {r : TraceReader} {p q : List Char} {req : Request} (hreq : req.InRange)
    (hin : r.input = asciiBytes (p ++ req.render.toList ++ '\n' :: q)) (hpos : r.pos = p.length) :
    r.next = (⟨r.input, p.length + req.render.toList.length + 1, r.line + 1, r.recordsRead + 1⟩,
      .ok (some ⟨r.line + 1, req⟩)) := by
  have hl := render_ascii req
  have hend : TraceReader.lineEnd r.input r.pos = p.length + req.render.toList.length + 1 := by
    rw [hin, hpos]
    exact lineEnd_asciiBytes hl
  have hchunk : r.input.extract r.pos (p.length + req.render.toList.length + 1) =
      asciiBytes (req.render.toList ++ ['\n']) := by
    have := extract_asciiBytes p (req.render.toList ++ ['\n']) q
    rw [hin, hpos]
    simpa [List.append_assoc, Nat.add_assoc] using this
  have hascii : ∀ c ∈ req.render.toList ++ ['\n'], c.toNat < 0x80 := fun c hc => by
    rcases List.mem_append.mp hc with hc | hc
    · exact (hl c hc).1
    · simp at hc; subst hc; decide
  have htext := fromUTF8?_asciiBytes hascii
  have hkept : (req.render.toList.isEmpty || req.render.toList.head? == some '#') = false := by
    cases req <;> simp [toList_render_eq_words, words, List.intercalate_cons_cons]
  rw [TraceReader.next, dif_pos (by rw [hin, hpos]; simp)]
  simp only [hend]
  rw [hchunk, htext]
  simp only [String.toList_ofList, trimBlank_render, parseRequest_render hreq, hkept]
  rfl

theorem next_end {r : TraceReader} (hpos : r.input.size ≤ r.pos) : r.next = (r, .ok none) := by
  rw [TraceReader.next, dif_neg (by omega)]

/-- The text of requests: each request's line followed by a line feed. -/
def lines (rs : List Request) : List Char := rs.flatMap fun q => q.render.toList ++ ['\n']

theorem length_le_lines (rs : List Request) : rs.length ≤ (lines rs).length := by
  induction rs with
  | nil => simp [lines]
  | cons q rs ih =>
    simp only [lines, List.flatMap_cons, List.length_append, List.length_cons] at ih ⊢
    omega

/-- Reading the lines of requests in range, after any text already read, answers the
requests in order on consecutive line numbers, one step of the reader each. -/
theorem readAll_lines : ∀ (rs : List Request) (p : List Char) (r : TraceReader)
    (acc : Array Record) (fuel : Nat), (∀ q ∈ rs, q.InRange) →
    r.input = asciiBytes (p ++ lines rs) → r.pos = p.length → rs.length < fuel →
    r.readAll acc fuel = .ok (acc ++ ((rs.zipIdx (r.line + 1)).map fun (q, i) => ⟨i, q⟩).toArray)
  | [], p, r, acc, fuel + 1, _, hin, hpos, _ => by
    rw [TraceReader.readAll, next_end (by rw [hin, hpos]; simp [lines])]
    simp
  | q :: rs, p, r, acc, fuel + 1, hrs, hin, hpos, hfuel => by
    have hin' : r.input = asciiBytes (p ++ q.render.toList ++ '\n' :: lines rs) := by
      rw [hin]
      simp [lines, List.append_assoc]
    rw [TraceReader.readAll, next_line (hrs q (by simp)) hin' hpos]
    dsimp only
    rw [readAll_lines rs (p ++ q.render.toList ++ ['\n']) _ _ fuel
      (fun q' hq' => hrs q' (by simp [hq'])) (by rw [hin']; simp) (by simp; omega)
      (by simpa using hfuel)]
    simp [List.zipIdx_cons]

end Reader

section Texts

/-- The requests of a trace, in order. -/
def requests (t : Trace) : List Request := t.records.toList.map Record.request

theorem toList_render (t : Trace) : t.render.toList = lines t.requests := by
  have hgo : ∀ (recs : List Record) (acc : String),
      (recs.foldl (fun acc r => acc ++ r.request.render ++ "\n") acc).toList =
        acc.toList ++ lines (recs.map Record.request) := by
    intro recs
    induction recs with
    | nil => simp [lines]
    | cons rec recs ih =>
      intro acc
      rw [List.foldl_cons, ih]
      simp [lines, String.toList_append]
  rw [render, ← Array.foldl_toList, hgo]
  rfl

theorem lines_ascii (rs : List Request) : ∀ c ∈ lines rs, c.toNat < 0x80 := by
  intro c hc
  obtain ⟨q, -, hq⟩ := List.mem_flatMap.mp hc
  rcases List.mem_append.mp hq with hq | hq
  · exact (render_ascii q c hq).1
  · simp at hq
    subst hq
    decide

/-- The text of a trace reads back as the trace of its requests, numbered from line 1:
each request is read from its own line whatever line its record named. -/
theorem parse_render (t : Trace) (ht : ∀ rec ∈ t.records, rec.request.InRange) :
    parse t.render = .ok (ofRequests t.requests) := by
  have hbytes : t.render.toUTF8 = asciiBytes (lines t.requests) := by
    rw [String.toUTF8_eq_toByteArray, ← String.ofList_toList (s := t.render), toList_render,
      toByteArray_ofList_ascii (lines_ascii _)]
  have hrange : ∀ q ∈ t.requests, q.InRange := by
    intro q hq
    obtain ⟨rec, hrec, rfl⟩ := List.mem_map.mp hq
    exact ht rec (Array.mem_toList_iff.mp hrec)
  rw [parse, read, hbytes, readAll_lines t.requests [] _ _ _ hrange (by simp) rfl
    (by have := length_le_lines t.requests; simp; omega)]
  simp only [ofRequests, requests, Array.empty_append, List.map_toArray]
  rfl

theorem parseBounded_lt {bound : Nat} {cs : List Char} {v : Nat}
    (h : parseBounded bound cs = some v) : v < bound := by
  unfold parseBounded at h
  dsimp only at h
  split at h <;> split_ifs at h with h₁ h₂ <;> cases h <;> assumption

/-- Every request read from a line is in range. -/
theorem parseRequest_inRange {cs : List Char} {q : Request} (h : parseRequest cs = .ok q) :
    q.InRange := by
  unfold parseRequest at h
  simp only [bind, Except.bind, throw, throwThe, MonadExceptOf.throw, pure, Except.pure] at h
  repeat' split at h
  all_goals try cases h
  all_goals refine ⟨parseBounded_lt ‹_›, fun s hs => ?_⟩
  all_goals simp only [Request.size?, Option.some.injEq, reduceCtorEq] at hs
  all_goals subst hs
  all_goals repeat' split at *
  all_goals first
    | cases ‹Except.error _ = Except.ok _›
    | cases ‹Except.ok _ = Except.ok _›; exact parseBounded_lt ‹_›

/-- Every record the reader answers holds a request in range. -/
theorem next_inRange (r : TraceReader) {r' : TraceReader} {rec : Record}
    (h : r.next = (r', .ok (some rec))) : rec.request.InRange := by
  fun_induction TraceReader.next r with
  | case2 _ _ _ _ _ _ _ _ _ _ _ ih => exact ih h
  | case4 _ _ _ _ _ _ _ _ _ _ _ _ hreq =>
    simp only [Prod.mk.injEq, Except.ok.injEq, Option.some.injEq] at h
    rw [← h.2]
    exact parseRequest_inRange hreq
  | _ => simp at h

theorem readAll_inRange : ∀ (fuel : Nat) (r : TraceReader) (acc out : Array Record),
    (∀ rec ∈ acc, rec.request.InRange) → r.readAll acc fuel = .ok out →
    ∀ rec ∈ out, rec.request.InRange
  | 0, _, _, _, hacc, h => by
    cases h
    exact hacc
  | fuel + 1, r, acc, out, hacc, h => by
    rw [TraceReader.readAll] at h
    split at h
    · cases h
    · cases h
      exact hacc
    · rename_i r' rec hnext
      refine readAll_inRange fuel r' _ out (fun x hx => ?_) h
      rcases Array.mem_push.mp hx with hx | rfl
      · exact hacc x hx
      · exact next_inRange r hnext

/-- Every request of a trace read from a text is in range. -/
theorem parse_inRange {s : String} {t : Trace} (h : parse s = .ok t) :
    ∀ rec ∈ t.records, rec.request.InRange := by
  rw [parse, read] at h
  cases hr : TraceReader.readAll { input := s.toUTF8 } #[] (s.toUTF8.size + 1) with
  | error e => rw [hr] at h; cases h
  | ok out =>
    rw [hr] at h
    cases h
    exact readAll_inRange _ _ _ _ (by simp) hr

/-- A trace numbered from line 1, one line per record. -/
def Numbered (t : Trace) : Prop := ∀ i (h : i < t.records.size), t.records[i].line = i + 1

theorem size_ofRequests (rs : List Request) : (ofRequests rs).records.size = rs.length := by
  simp [ofRequests]

theorem getElem_ofRequests (rs : List Request) (i : Nat) (h : i < (ofRequests rs).records.size)
    (hi : i < rs.length) : (ofRequests rs).records[i] = ⟨i + 1, rs[i]⟩ := by
  simp [ofRequests, List.getElem_zipIdx, Nat.add_comm]

theorem ofRequests_numbered (rs : List Request) : (ofRequests rs).Numbered := fun i h => by
  rw [getElem_ofRequests _ _ _ (by simpa [size_ofRequests] using h)]

theorem requests_ofRequests (rs : List Request) : (ofRequests rs).requests = rs := by
  simp [requests, ofRequests, Function.comp_def]

theorem ofRequests_requests {t : Trace} (ht : t.Numbered) : ofRequests t.requests = t := by
  obtain ⟨records⟩ := t
  show (⟨(ofRequests _).records⟩ : Trace) = ⟨records⟩
  congr 1
  refine Array.ext (by simp [size_ofRequests, requests]) fun i h₁ h₂ => ?_
  rw [getElem_ofRequests _ _ _ (by simpa [size_ofRequests] using h₁), ← ht i h₂]
  simp [requests]

/-- Appending to a numbered trace keeps it numbered. -/
theorem push_numbered {t : Trace} (ht : t.Numbered) (r : Request) : (t.push r).Numbered := by
  intro i hi
  simp only [push, Array.size_push] at hi ⊢
  rcases Nat.lt_or_eq_of_le (Nat.le_of_lt_succ hi) with hlt | rfl
  · rw [Array.getElem_push_lt hlt]
    exact ht i hlt
  · rw [Array.getElem_push_eq]
    cases hb : t.records.back? with
    | none => simp_all [Array.back?_eq_none_iff]
    | some last =>
      obtain ⟨hpos, hlast⟩ : ∃ h : 0 < t.records.size, t.records[t.records.size - 1] = last := by
        rw [Array.back?_eq_getElem?, Array.getElem?_eq_some_iff] at hb
        obtain ⟨h, e⟩ := hb
        exact ⟨by omega, e⟩
      simp only
      rw [← hlast, ht _ (by omega)]
      omega

theorem foldl_push_numbered (rs : List Request) {t : Trace} (ht : t.Numbered) :
    (rs.foldl push t).Numbered := by
  induction rs generalizing t with
  | nil => exact ht
  | cons r rs ih => exact ih (push_numbered ht r)

/-- Parsing inverts rendering. The text of any trace whose identifiers and sizes fit the
format reads back as the trace of its requests numbered from line 1; so on a trace numbered
that way, as every trace built from a list of requests or pushed onto the empty trace is,
parsing after rendering is the identity; and rendering a trace read from any text and
reading it again gives the same requests. -/
theorem parse_inverts_render :
    (∀ t : Trace, (∀ rec ∈ t.records, rec.request.InRange) →
      parse t.render = .ok (ofRequests t.requests)) ∧
    (∀ t : Trace, (∀ rec ∈ t.records, rec.request.InRange) → t.Numbered →
      parse t.render = .ok t) ∧
    (∀ rs : List Request, (ofRequests rs).Numbered ∧ (rs.foldl push {}).Numbered) ∧
    ∀ s t, parse s = .ok t → ∃ t', parse t.render = .ok t' ∧ t'.requests = t.requests := by
  refine ⟨parse_render, fun t ht hn => ?_, fun rs => ⟨ofRequests_numbered rs, ?_⟩,
    fun s t hs => ⟨_, parse_render t (parse_inRange hs), requests_ofRequests _⟩⟩
  · rw [parse_render t ht, ofRequests_requests hn]
  · exact foldl_push_numbered rs fun i h => absurd h (by simp)

end Texts

end Trace

end Allocator
