import Allocator.Proofs.TraceLines

/-! Reading a text through its UTF-8 bytes. Only a line feed is encoded with the line feed's
byte, so the lines the reader cuts from the bytes are the text's lines. `Before` says where the
reader stands in the text; one read takes one line (`next_of_before`), and reading on answers
what the lines read as (`answers_of_reads`). Parsing a text, and the iterator of its records,
are then what `ReadsLines` says of its lines (`parse_reads_lines`). -/
namespace Allocator

section Encoding

/-- Only the line feed is encoded with the line feed's byte: every other character's bytes
are either one byte of another value or all at least 0x80. -/
theorem utf8EncodeChar_ne_newline {c : Char} (hc : c ≠ '\n') :
    ∀ b ∈ String.utf8EncodeChar c, b ≠ 10 := by
  have hv : c.toNat ≠ 10 := fun h => hc (Char.toNat_inj.mp h)
  have hval : c.val.toNat = c.toNat := rfl
  have hbyte : ∀ k, k % 256 ≠ 10 → UInt8.ofNat k ≠ 10 := fun k hk h => hk (by
    simpa [UInt8.toNat_ofNat'] using congrArg UInt8.toNat h)
  intro b hb
  simp only [String.utf8EncodeChar, hval] at hb
  split_ifs at hb <;> simp only [List.mem_cons, List.not_mem_nil, or_false] at hb <;>
    rcases hb with rfl | rfl | rfl | rfl <;> exact hbyte _ (by omega)

theorem getElem_utf8Encode_ne_newline {l : List Char} (hl : '\n' ∉ l) {j : Nat}
    (hj : j < l.utf8Encode.size) : l.utf8Encode[j] ≠ 10 := by
  have hmem : l.utf8Encode[j] ∈ l.flatMap String.utf8EncodeChar := by
    simp only [List.utf8Encode, List.getElem_toByteArray]
    exact List.getElem_mem _
  obtain ⟨c, hc, hb⟩ := List.mem_flatMap.mp hmem
  exact utf8EncodeChar_ne_newline (fun h => hl (h ▸ hc)) _ hb

theorem utf8Encode_newline : ['\n'].utf8Encode = [10].toByteArray := rfl

theorem fromUTF8?_utf8Encode (cs : List Char) :
    String.fromUTF8? cs.utf8Encode = some (String.ofList cs) := by
  rw [← String.toByteArray_ofList, String.fromUTF8?, dif_pos (String.ofList cs).isValidUTF8]
  rfl

/-- Every character takes at least one byte. -/
theorem length_le_size_utf8Encode (cs : List Char) : cs.length ≤ cs.utf8Encode.size := by
  induction cs with
  | nil => simp
  | cons c cs ih =>
    rw [List.utf8Encode_cons, ByteArray.size_append, List.utf8Encode_singleton,
      List.size_toByteArray, String.length_utf8EncodeChar, List.length_cons]
    have := c.utf8Size_pos
    omega

/-- The bytes of a piece of text, cut from the bytes around it. -/
theorem extract_utf8Encode (p l q : List Char) :
    (p ++ l ++ q).utf8Encode.extract p.utf8Encode.size (p ++ l).utf8Encode.size =
      l.utf8Encode := by
  have h := ByteArray.extract_append_size_add (a := p.utf8Encode) (b := l.utf8Encode ++ q.utf8Encode)
    (i := 0) (j := l.utf8Encode.size)
  simp only [Nat.add_zero] at h
  simp only [List.utf8Encode_append, ByteArray.size_append, ByteArray.append_assoc, h]
  exact ByteArray.extract_append_eq_left rfl

end Encoding

namespace TraceReader

theorem lineEnd_eq_size {b : ByteArray} {i : Nat}
    (hnone : ∀ j (hj : j < b.size), i ≤ j → b[j] ≠ 10) : lineEnd b i = b.size := by
  fun_induction lineEnd b i with
  | case1 i hi heq => exact absurd heq (hnone i hi le_rfl)
  | case2 i hi hne ih => exact ih fun j hj hij => hnone j hj (by omega)
  | case3 i hi => rfl

/-- A line of text followed by a line feed ends just after it. -/
theorem lineEnd_utf8Encode_newline {p l q : List Char} (hl : '\n' ∉ l) :
    lineEnd (p ++ l ++ '\n' :: q).utf8Encode p.utf8Encode.size =
      (p ++ l ++ ['\n']).utf8Encode.size := by
  have hb : (p ++ l ++ '\n' :: q).utf8Encode =
      p.utf8Encode ++ l.utf8Encode ++ [10].toByteArray ++ q.utf8Encode := by
    rw [List.utf8Encode_append, List.utf8Encode_append, List.utf8Encode_cons, utf8Encode_newline,
      ByteArray.append_assoc (a := p.utf8Encode ++ l.utf8Encode)]
  have hsize : (p ++ l ++ ['\n']).utf8Encode.size = p.utf8Encode.size + l.utf8Encode.size + 1 := by
    simp [utf8Encode_newline]; omega
  rw [hsize, hb]
  refine Trace.lineEnd_eq (by omega) (by simp; omega) ?_ fun j hj h1 h2 => ?_
  · rw [ByteArray.getElem_append_left (by simp), ByteArray.getElem_append_right (by simp)]
    simp
  · rw [ByteArray.getElem_append_left (by simp; omega), ByteArray.getElem_append_left (by simp; omega),
      ByteArray.getElem_append_right h1]
    exact getElem_utf8Encode_ne_newline hl _

theorem lineEnd_utf8Encode_last {p l : List Char} (hl : '\n' ∉ l) :
    lineEnd (p ++ l).utf8Encode p.utf8Encode.size = (p ++ l).utf8Encode.size := by
  refine lineEnd_eq_size fun j hj h1 => ?_
  simp only [List.utf8Encode_append] at hj ⊢
  rw [ByteArray.getElem_append_right h1]
  exact getElem_utf8Encode_ne_newline hl _

/-- The reader stands before the lines `ls` of a text, `n` lines read: the stream is the
text's bytes, the position is just after the text read so far, and what follows it is the
lines left, joined by line feeds. -/
structure Before (r : TraceReader) (n : Nat) (ls : List (List Char)) : Prop where
  /-- No line left holds a line feed. -/
  unbroken : ∀ l ∈ ls, '\n' ∉ l
  /-- The stream is the text read so far, then the lines left. -/
  input : ∃ p, r.input = (p ++ ['\n'].intercalate ls).utf8Encode ∧ r.pos = p.utf8Encode.size
  /-- The lines read so far. -/
  line : r.line = n

theorem Before.recordsRead {r : TraceReader} {n : Nat} {ls : List (List Char)} (h : Before r n ls)
    (k : Nat) : Before { r with recordsRead := k } n ls :=
  ⟨h.unbroken, h.input, h.line⟩

theorem Before.next_end {r : TraceReader} {n : Nat} {ls : List (List Char)} (h : Before r n ls)
    (hls : ls = [] ∨ ls = [[]]) : r.next = (r, .ok none) := by
  obtain ⟨p, hin, hpos⟩ := h.input
  have hrest : ['\n'].intercalate ls = [] := by rcases hls with rfl | rfl <;> rfl
  exact Trace.next_end (by rw [hin, hpos, hrest, List.append_nil])

/-- Reading one line: the reader takes the line, with its line feed if one follows, and stands
before the next lines, one more line read. What it answers is what the line holds: a line that
holds nothing is passed over to the next, a request is answered on the line's number, and so is
what is wrong with a malformed line. -/
theorem next_of_before {r : TraceReader} {n : Nat} {l : List Char} {ls : List (List Char)}
    (hb : Before r n (l :: ls)) (hne : l ≠ [] ∨ ls ≠ []) :
    ∃ r', Before r' (n + 1) ls ∧ r.next = match Trace.lineRequest l with
      | .ok none => r'.next
      | .ok (some q) => ({ r' with recordsRead := r'.recordsRead + 1 }, .ok (some ⟨n + 1, q⟩))
      | .error d => (r', .error (.malformed (n + 1) d)) := by
  obtain ⟨hun, ⟨p, hin, hpos⟩, hline⟩ := hb
  have hl : '\n' ∉ l := hun l List.mem_cons_self
  obtain ⟨tail, hread, htrim, htext, hend⟩ : ∃ tail, l ++ tail ≠ [] ∧
      Trace.trimBlank (l ++ tail) = Trace.trimBlank l ∧
      ['\n'].intercalate (l :: ls) = l ++ tail ++ ['\n'].intercalate ls ∧
      lineEnd r.input r.pos = (p ++ l ++ tail).utf8Encode.size := by
    cases ls with
    | nil =>
      refine ⟨[], by simpa using hne, by simp, by simp, ?_⟩
      rw [hin, hpos]
      simpa using lineEnd_utf8Encode_last hl
    | cons l' ls =>
      refine ⟨['\n'], by simp, Trace.trimBlank_append_blank (by decide) l, ?_, ?_⟩
      · rw [List.intercalate_cons_cons]
      · rw [hin, hpos, List.intercalate_cons_cons]
        simpa using lineEnd_utf8Encode_newline (p := p) (q := ['\n'].intercalate (l' :: ls)) hl
  have hin' : r.input = (p ++ (l ++ tail) ++ ['\n'].intercalate ls).utf8Encode := by
    rw [hin, htext, List.append_assoc, List.append_assoc, List.append_assoc]
  have hlt : r.pos < r.input.size := by
    have : 0 < (l ++ tail).utf8Encode.size := by
      rw [Nat.pos_iff_ne_zero, ne_eq, ByteArray.size_eq_zero_iff, List.utf8Encode_eq_empty]
      exact hread
    rw [hin', hpos]
    simp only [List.utf8Encode_append, ByteArray.size_append] at this ⊢
    omega
  have hchunk : r.input.extract r.pos (p ++ l ++ tail).utf8Encode.size = (l ++ tail).utf8Encode := by
    rw [hin', hpos, List.append_assoc p l tail]
    exact extract_utf8Encode p (l ++ tail) _
  refine ⟨{ r with pos := (p ++ l ++ tail).utf8Encode.size, line := r.line + 1 },
    ⟨fun l' hl' => hun l' (List.mem_cons_of_mem _ hl'), ⟨p ++ l ++ tail, ?_, rfl⟩,
      by simp [hline]⟩, ?_⟩
  · rw [hin', List.append_assoc p l tail]
  · rw [next, dif_pos hlt]
    simp only [hend, hchunk, fromUTF8?_utf8Encode, String.toList_ofList, htrim, hline]
    unfold Trace.lineRequest
    split
    · rfl
    · cases Trace.parseRequest (Trace.trimBlank l) <;> rfl

/-- Successive reads from `r` answer `out`: the record of each read that returns one, then
either the end of the stream, where `out` stops, or a failure, which `out` ends with. -/
inductive Answers : TraceReader → List (Except TraceError Record) → Prop
  | done {r r' : TraceReader} : r.next = (r', .ok none) → Answers r []
  | fail {r r' : TraceReader} {e : TraceError} : r.next = (r', .error e) → Answers r [.error e]
  | record {r r' : TraceReader} {rec : Record} {out : List (Except TraceError Record)} :
      r.next = (r', .ok (some rec)) → Answers r' out → Answers r (.ok rec :: out)

theorem Answers.of_next_eq {r r₁ : TraceReader} {out : List (Except TraceError Record)}
    (hn : r.next = r₁.next) (h : Answers r₁ out) : Answers r out := by
  cases h with
  | done h₁ => exact .done (hn.trans h₁)
  | fail h₁ => exact .fail (hn.trans h₁)
  | record h₁ h₂ => exact .record (hn.trans h₁) h₂

/-- A line that holds nothing is passed over: the reader answers what the lines after it
read as. -/
theorem Answers.skip {r : TraceReader} {n : Nat} {l : List Char} {ls : List (List Char)}
    {out : List (Except TraceError Record)} (hb : Before r n (l :: ls))
    (hl : Trace.lineRequest l = .ok none) (hrest : Trace.ReadsLines (n + 1) ls out)
    (ih : ∀ r', Before r' (n + 1) ls → Answers r' out) : Answers r out := by
  by_cases hend : l = [] ∧ ls = []
  · obtain ⟨rfl, rfl⟩ := hend
    cases hrest
    exact .done (hb.next_end (.inr rfl))
  · obtain ⟨r', hb', hnext⟩ := next_of_before hb (by tauto)
    rw [hl] at hnext
    exact (ih r' hb').of_next_eq hnext

/-- A reader that stands before lines answers what they read as. -/
theorem answers_of_reads {n : Nat} {ls : List (List Char)} {out : List (Except TraceError Record)}
    (h : Trace.ReadsLines n ls out) : ∀ r, Before r n ls → Answers r out := by
  induction h with
  | nil => exact fun r hb => .done (hb.next_end (.inl rfl))
  | blank hl hrest ih => exact fun r hb => .skip hb (Trace.lineRequest_of_blank hl) hrest ih
  | comment hl hrest ih => exact fun r hb => .skip hb (Trace.lineRequest_of_comment hl) hrest ih
  | @request n l ls out q hq _ ih =>
    intro r hb
    have hl : l ≠ [] := by
      rintro rfl
      obtain ⟨c, rest, hfs, -⟩ := hq.head
      cases hfs
    obtain ⟨r', hb', hnext⟩ := next_of_before hb (.inl hl)
    rw [Trace.lineRequest_of_spells hq] at hnext
    exact .record hnext (ih _ (hb'.recordsRead _))
  | @malformed n l ls d hbl hc hd =>
    intro r hb
    have hl : l ≠ [] := by
      rintro rfl
      exact hbl rfl
    obtain ⟨r', -, hnext⟩ := next_of_before hb (.inl hl)
    rw [Trace.lineRequest_of_misspells hbl hc hd] at hnext
    exact .fail hnext

/-- Reading everything collects the records a reader answers, or stops at its failure, given
fuel for one more read than there are answers. -/
theorem readAll_of_answers {r : TraceReader} {out : List (Except TraceError Record)}
    (h : Answers r out) : ∀ (acc : Array Record) (fuel : Nat), out.length < fuel →
      r.readAll acc fuel = (out.mapM id).map (acc ++ ·.toArray) := by
  induction h with
  | done hn =>
    rintro acc (_ | fuel) hf
    · cases hf
    · rw [readAll, hn]
      show Except.ok acc = Except.ok (acc ++ ([] : List Record).toArray)
      simp
  | fail hn =>
    rintro acc (_ | fuel) hf
    · cases hf
    · rw [readAll, hn]; rfl
  | @record r r' rec out hn _ ih =>
    rintro acc (_ | fuel) hf
    · cases hf
    · rw [readAll, hn]
      dsimp only
      rw [ih (acc.push rec) fuel (by simpa using hf), List.mapM_cons]
      cases List.mapM id out with
      | error e => rfl
      | ok rs =>
        show Except.ok (acc.push rec ++ rs.toArray) = Except.ok (acc ++ (rec :: rs).toArray)
        simp

/-- The answers of `k` successive calls of `next`. -/
def Records.pull (it : Records) : Nat → List (Option (Except TraceError Record))
  | 0 => []
  | k + 1 => it.next.2 :: it.next.1.pull k

theorem Records.pull_done {it : Records} (h : it.done = true) (k : Nat) :
    it.pull k = List.replicate k none := by
  induction k with
  | zero => rfl
  | succ k ih => simp [pull, next, h, ih, List.replicate_succ]

/-- The records of a reader are what it answers, one per call, then nothing for ever. -/
theorem pull_records {r : TraceReader} {out : List (Except TraceError Record)}
    (h : Answers r out) (k : Nat) :
    (records r).pull k = (out.map some ++ List.replicate k none).take k := by
  induction h generalizing k with
  | done hn =>
    cases k with
    | zero => rfl
    | succ k => simp [Records.pull, Records.next, records, hn, Records.pull_done, List.replicate_succ]
  | fail hn =>
    cases k with
    | zero => rfl
    | succ k => simp [Records.pull, Records.next, records, hn, Records.pull_done, List.take_replicate]
  | record hn _ ih =>
    cases k with
    | zero => rfl
    | succ k =>
      simp only [Records.pull, Records.next, records, hn, Bool.false_eq_true, if_false]
      rw [show ({ reader := _ } : Records) = records _ from rfl, ih k]
      simp only [List.map_cons, List.cons_append, List.take_succ_cons, List.take_append,
        List.take_replicate]
      congr 3
      omega

end TraceReader

namespace Trace

/-- No line of a text split at line feeds holds one. -/
theorem newline_not_mem_of_mem_splitOn : ∀ {cs l : List Char}, l ∈ cs.splitOn '\n' → '\n' ∉ l
  | [], l, hl => by
    simp only [List.splitOn_nil, List.mem_singleton] at hl
    simp [hl]
  | c :: cs, l, hl => by
    rw [List.splitOn_cons_eq_if_modifyHead] at hl
    split_ifs at hl with hc
    · rcases List.mem_cons.mp hl with rfl | hl
      · simp
      · exact newline_not_mem_of_mem_splitOn hl
    · obtain ⟨first, rest, hsplit⟩ := List.exists_cons_of_ne_nil (List.splitOn_ne_nil '\n' cs)
      rw [hsplit, List.modifyHead_cons] at hl
      rcases List.mem_cons.mp hl with rfl | hl
      · have hfirst :=
          newline_not_mem_of_mem_splitOn (hsplit ▸ List.mem_cons_self : first ∈ cs.splitOn '\n')
        simp only [beq_iff_eq] at hc
        simp [hfirst, Ne.symm hc]
      · exact newline_not_mem_of_mem_splitOn (hsplit ▸ List.mem_cons_of_mem _ hl)

theorem before_lines (s : String) :
    TraceReader.Before { input := s.toUTF8 } 0 (s.toList.splitOn '\n') where
  unbroken _ hl := newline_not_mem_of_mem_splitOn hl
  input := ⟨[], by
    rw [List.nil_append, List.intercalate_splitOn, String.toUTF8_eq_toByteArray,
      ← String.toByteArray_ofList, String.ofList_toList], by simp⟩
  line := rfl

theorem ne_nil_of_spells {l : List Char} {q : Request} (h : Spells (fields l) q) : l ≠ [] := by
  rintro rfl
  obtain ⟨c, rest, hfs, -⟩ := h.head
  cases hfs

theorem length_le_intercalate_cons (l : List Char) (ls : List (List Char)) :
    l.length + (['\n'].intercalate ls).length ≤ (['\n'].intercalate (l :: ls)).length := by
  cases ls with
  | nil => simp
  | cons l' ls => rw [List.intercalate_cons_cons]; simp

/-- Each outcome comes from a line of its own that is not empty, so there are no more outcomes
than characters. -/
theorem ReadsLines.length_le {n : Nat} {ls : List (List Char)}
    {out : List (Except TraceError Record)} (h : ReadsLines n ls out) :
    out.length ≤ (['\n'].intercalate ls).length := by
  induction h with
  | nil => simp
  | @blank n l ls out _ _ ih => have := length_le_intercalate_cons l ls; omega
  | @comment n l ls out _ _ ih => have := length_le_intercalate_cons l ls; omega
  | @request n l ls out q hq _ ih =>
    have := length_le_intercalate_cons l ls
    have := List.length_pos_of_ne_nil (ne_nil_of_spells hq)
    simp only [List.length_cons]
    omega
  | @malformed n l ls d hb _ _ =>
    have := length_le_intercalate_cons l ls
    have := List.length_pos_of_ne_nil (fun h : l = [] => hb (by rw [h]; rfl))
    simp only [List.length_cons, List.length_nil]
    omega

/-- A text parses as what its lines read as: their records, or their failure. -/
theorem parse_of_reads {s : String} {out : List (Except TraceError Record)}
    (h : ReadsLines 0 (s.toList.splitOn '\n') out) :
    parse s = (out.mapM id).map (⟨·.toArray⟩) := by
  have hfuel : out.length < s.toUTF8.size + 1 := by
    have hlen := h.length_le
    rw [List.intercalate_splitOn] at hlen
    have := length_le_size_utf8Encode s.toList
    rw [← String.toByteArray_ofList, String.ofList_toList, ← String.toUTF8_eq_toByteArray] at this
    omega
  rw [parse, read, TraceReader.readAll_of_answers (TraceReader.answers_of_reads h _ (before_lines s))
    #[] _ hfuel]
  cases out.mapM id <;> simp [Except.map]

theorem mapM_id_map_ok (rs : List Record) :
    (rs.map .ok).mapM id = (.ok rs : Except TraceError (List Record)) := by
  induction rs with
  | nil => rfl
  | cons r rs ih => simp only [List.map_cons, List.mapM_cons, ih]; rfl

theorem mapM_id_map_ok_error (rs : List Record) (e : TraceError) :
    (rs.map Except.ok ++ [Except.error e]).mapM id = (.error e : Except TraceError (List Record)) := by
  induction rs with
  | nil => rfl
  | cons r rs ih => simp only [List.map_cons, List.cons_append, List.mapM_cons, ih]; rfl

/-- What a text parses as is what its lines read as: its records, or its failure. -/
theorem reads_of_parse {s : String} :
    (∀ t, parse s = .ok t → ReadsLines 0 (s.toList.splitOn '\n') (t.records.toList.map .ok)) ∧
    (∀ e, parse s = .error e →
      ∃ rs : List Record, ReadsLines 0 (s.toList.splitOn '\n') (rs.map .ok ++ [.error e])) := by
  obtain ⟨out, h⟩ := ReadsLines.exists 0 (s.toList.splitOn '\n')
  have hparse := parse_of_reads h
  rcases h.shape with ⟨rs, rfl⟩ | ⟨rs, e, rfl⟩
  · rw [mapM_id_map_ok] at hparse
    refine ⟨fun t ht => ?_, fun e he => ?_⟩
    · rw [hparse] at ht
      cases ht
      simpa using h
    · rw [hparse] at he
      cases he
  · rw [mapM_id_map_ok_error] at hparse
    refine ⟨fun t ht => ?_, fun e' he => ?_⟩
    · rw [hparse] at ht
      cases ht
    · rw [hparse] at he
      cases he
      exact ⟨rs, h⟩

/-- Reading a trace from text goes line by line. The text's lines, split at line feeds and
numbered from one, are each, once trimmed of blanks, empty, a comment, a request spelled by its
fields, or malformed. The text parses exactly when no line is malformed, and the trace's records
are then the requests on their lines' numbers; otherwise parsing fails at the first malformed
line, with the detail of the first check its fields fail. The reader's records, one call at a
time, answer those records in order, then that failure, and then nothing, for ever. -/
theorem parse_reads_lines (s : String) :
    ((∃ t, parse s = .ok t) ↔ ∀ l ∈ s.toList.splitOn '\n',
        trimBlank l = [] ∨ (trimBlank l).head? = some '#' ∨ ∃ q, Spells (fields l) q) ∧
    (∀ t, parse s = .ok t ↔ ReadsLines 0 (s.toList.splitOn '\n') (t.records.toList.map .ok)) ∧
    (∀ e, parse s = .error e ↔ ∃ rs : List Record,
        ReadsLines 0 (s.toList.splitOn '\n') (rs.map .ok ++ [.error e])) ∧
    ∃ out, ReadsLines 0 (s.toList.splitOn '\n') out ∧ ∀ k,
      (TraceReader.records { input := s.toUTF8 }).pull k =
        (out.map some ++ List.replicate k none).take k := by
  obtain ⟨hok, herr⟩ := reads_of_parse (s := s)
  obtain ⟨out, h⟩ := ReadsLines.exists 0 (s.toList.splitOn '\n')
  refine ⟨⟨fun hparse => ?_, fun hall => ?_⟩, fun t => ⟨hok t, fun h' => ?_⟩,
    fun e => ⟨herr e, fun hread => ?_⟩,
    out, h, TraceReader.pull_records (TraceReader.answers_of_reads h _ (before_lines s))⟩
  · obtain ⟨t, ht⟩ := hparse
    exact (hok t ht).records_iff.mp ⟨_, rfl⟩
  · obtain ⟨rs, rfl⟩ := h.records_iff.mpr hall
    exact ⟨_, by rw [parse_of_reads h, mapM_id_map_ok]; rfl⟩
  · rw [parse_of_reads h', mapM_id_map_ok]
    simp [Except.map]
  · obtain ⟨rs, h'⟩ := hread
    rw [parse_of_reads h', mapM_id_map_ok_error]
    rfl

end Trace

end Allocator
