import Allocator.Proofs.TraceText

/-! What each line of a trace reads as. A line is trimmed of blanks at both ends; an empty
line or a comment holds nothing; otherwise its fields either spell a request (`Spells`: the
kind, a 32-bit identifier, a 64-bit size for acquire and resize, nothing more) or misspell
one (`Misspells`), and the detail names the first check that fails, in the order identifier,
size, kind, extra field. `ReadsLines` numbers the lines of a text from one and reads them in
order, up to and including the first malformed one: it is the reading of a text stated with
no mention of bytes or of the reader. -/
namespace Allocator

namespace Trace

section Trim

theorem fields_blank_append {bs : List Char} (hbs : ∀ c ∈ bs, Text.isBlank c = true)
    (cs : List Char) : fields (bs ++ cs) = fields cs := by
  induction bs with
  | nil => rfl
  | cons b bs ih =>
    rw [List.cons_append, fields, fieldsFrom, if_pos (hbs b (by simp))]
    exact ih fun c hc => hbs c (by simp [hc])

theorem fieldsFrom_blanks {bs : List Char} (hbs : ∀ c ∈ bs, Text.isBlank c = true)
    (cur : List Char) : fieldsFrom cur bs = fieldsFrom cur [] := by
  induction bs generalizing cur with
  | nil => rfl
  | cons b bs ih =>
    have hrest : fieldsFrom [] bs = [] := ih (fun c hc => hbs c (by simp [hc])) []
    simp only [fieldsFrom, hbs b (by simp), if_true, hrest]

theorem fieldsFrom_append_blanks {bs : List Char} (hbs : ∀ c ∈ bs, Text.isBlank c = true)
    (cs cur : List Char) : fieldsFrom cur (cs ++ bs) = fieldsFrom cur cs := by
  induction cs generalizing cur with
  | nil => exact fieldsFrom_blanks hbs cur
  | cons c cs ih => simp only [List.cons_append, fieldsFrom, ih]

/-- A line is its trimmed text between runs of blanks. -/
theorem trimBlank_spec (cs : List Char) : ∃ lead trail, cs = lead ++ trimBlank cs ++ trail ∧
    (∀ c ∈ lead, Text.isBlank c = true) ∧ ∀ c ∈ trail, Text.isBlank c = true := by
  let back := (cs.dropWhile Text.isBlank).reverse
  refine ⟨cs.takeWhile Text.isBlank, (back.takeWhile Text.isBlank).reverse, ?_,
    fun c hc => List.mem_takeWhile_imp hc, fun c hc => List.mem_takeWhile_imp (List.mem_reverse.mp hc)⟩
  have hback : cs.dropWhile Text.isBlank = trimBlank cs ++ (back.takeWhile Text.isBlank).reverse := by
    rw [trimBlank, ← List.reverse_append, List.takeWhile_append_dropWhile, List.reverse_reverse]
  rw [List.append_assoc, ← hback, List.takeWhile_append_dropWhile]

theorem fields_trimBlank (cs : List Char) : fields (trimBlank cs) = fields cs := by
  obtain ⟨lead, trail, hcs, hlead, htrail⟩ := trimBlank_spec cs
  conv_rhs => rw [hcs, List.append_assoc, fields_blank_append hlead]
  exact (fieldsFrom_append_blanks htrail _ []).symm

/-- A blank at the end of a line is trimmed with the rest. -/
theorem trimBlank_append_blank {c : Char} (hc : Text.isBlank c = true) (cs : List Char) :
    trimBlank (cs ++ [c]) = trimBlank cs := by
  rw [trimBlank, trimBlank, List.dropWhile_append]
  split
  · next hd =>
    rw [List.isEmpty_iff.mp hd, List.dropWhile_cons_of_pos (by simpa using hc)]
    simp
  · rw [List.reverse_append, List.reverse_singleton, List.singleton_append,
      List.dropWhile_cons_of_pos (by simpa using hc)]

/-- The first field of a text that starts a field with `cur` begins with `cur`. -/
theorem fieldsFrom_head {cur : List Char} (hcur : cur ≠ []) :
    ∀ cs, ∃ w ws, fieldsFrom cur cs = (cur.reverse ++ w) :: ws
  | [] => ⟨[], [], by simp [fieldsFrom, hcur]⟩
  | c :: cs => by
    by_cases hc : Text.isBlank c
    · exact ⟨[], fieldsFrom [] cs, by simp [fieldsFrom, hc, hcur]⟩
    · obtain ⟨w, ws, h⟩ := fieldsFrom_head (show c :: cur ≠ [] by simp) cs
      exact ⟨c :: w, ws, by simp [fieldsFrom, hc, h]⟩

theorem fields_cons {c : Char} (hc : Text.isBlank c = false) (cs : List Char) :
    ∃ w ws, fields (c :: cs) = (c :: w) :: ws := by
  obtain ⟨w, ws, h⟩ := fieldsFrom_head (show [c] ≠ [] by simp) cs
  exact ⟨w, ws, by simpa [fields, fieldsFrom, hc] using h⟩

end Trim

section Fields

/-- The fields spell a request: its kind, an identifier within 32 bits and, for acquire and
resize, a size within 64 bits, and nothing more. -/
inductive Spells : List (List Char) → Request → Prop
  | acquire {i n : List Char} {id size : Nat} : parseBounded (2 ^ 32) i = some id →
      parseBounded (2 ^ 64) n = some size → Spells [['a'], i, n] (.acquire id size)
  | resize {i n : List Char} {id size : Nat} : parseBounded (2 ^ 32) i = some id →
      parseBounded (2 ^ 64) n = some size → Spells [['r'], i, n] (.resize id size)
  | release {i : List Char} {id : Nat} : parseBounded (2 ^ 32) i = some id →
      Spells [['f'], i] (.release id)

/-- The fields spell no request, and the detail names the first check that fails: the
identifier of any kind first, then the size of an acquire or resize or else the kind itself,
then a field after the request. -/
inductive Misspells : List (List Char) → String → Prop
  | missingId {fs : List (List Char)} : fs.length ≤ 1 → Misspells fs "missing id"
  | badId {k i : List Char} {rest : List (List Char)} : parseBounded (2 ^ 32) i = none →
      Misspells (k :: i :: rest) s!"bad id {Text.quote (String.ofList i)}"
  | missingSize {k i : List Char} : k = ['a'] ∨ k = ['r'] → (parseBounded (2 ^ 32) i).isSome →
      Misspells [k, i] "missing size"
  | badSize {k i n : List Char} {rest : List (List Char)} : k = ['a'] ∨ k = ['r'] →
      (parseBounded (2 ^ 32) i).isSome → parseBounded (2 ^ 64) n = none →
      Misspells (k :: i :: n :: rest) s!"bad size {Text.quote (String.ofList n)}"
  | unknown {k i : List Char} {rest : List (List Char)} : k ≠ ['a'] → k ≠ ['r'] → k ≠ ['f'] →
      (parseBounded (2 ^ 32) i).isSome →
      Misspells (k :: i :: rest) s!"unknown request {Text.quote (String.ofList k)}"
  | extra {fs : List (List Char)} {q : Request} {x : List Char} {rest : List (List Char)} :
      Spells fs q → Misspells (fs ++ x :: rest) s!"unexpected field {Text.quote (String.ofList x)}"

theorem Spells.head {fs : List (List Char)} {q : Request} (h : Spells fs q) :
    ∃ c rest, fs = [c] :: rest ∧ (c = 'a' ∨ c = 'r' ∨ c = 'f') := by
  cases h <;> exact ⟨_, _, rfl, by simp⟩

/-- Every list of fields spells a request or misspells one. -/
theorem spells_or_misspells : ∀ fs : List (List Char), (∃ q, Spells fs q) ∨ ∃ d, Misspells fs d
  | [] => .inr ⟨_, .missingId (by simp)⟩
  | [_] => .inr ⟨_, .missingId (by simp)⟩
  | k :: i :: rest => by
    cases hi : parseBounded (2 ^ 32) i with
    | none => exact .inr ⟨_, .badId hi⟩
    | some id =>
      have hid : (parseBounded (2 ^ 32) i).isSome := by rw [hi]; rfl
      by_cases hk : k = ['a'] ∨ k = ['r']
      · cases rest with
        | nil => exact .inr ⟨_, .missingSize hk hid⟩
        | cons n more =>
          cases hn : parseBounded (2 ^ 64) n with
          | none => exact .inr ⟨_, .badSize hk hid hn⟩
          | some size =>
            obtain ⟨q, hq⟩ : ∃ q, Spells [k, i, n] q := by
              rcases hk with rfl | rfl
              exacts [⟨_, .acquire hi hn⟩, ⟨_, .resize hi hn⟩]
            cases more with
            | nil => exact .inl ⟨q, hq⟩
            | cons x xs => exact .inr ⟨_, @Misspells.extra _ _ x xs hq⟩
      · by_cases hf : k = ['f']
        · subst hf
          cases rest with
          | nil => exact .inl ⟨_, .release hi⟩
          | cons x xs => exact .inr ⟨_, @Misspells.extra _ _ x xs (.release hi)⟩
        · exact .inr ⟨_, .unknown (fun h => hk (.inl h)) (fun h => hk (.inr h)) hf hid⟩

/-- After the fields of a request the parser answers the request if nothing follows, and
otherwise rejects the first field after it. -/
theorem parseRequest_spells_append {cs : List Char} {fs rest : List (List Char)} {q : Request}
    (h : Spells fs q) (hfs : fields cs = fs ++ rest) :
    parseRequest cs = match rest with
      | [] => .ok q
      | x :: _ => .error s!"unexpected field {Text.quote (String.ofList x)}" := by
  cases h with
  | acquire hi hn =>
    simp only [Nat.reducePow] at hi hn
    cases rest <;> simp [parseRequest, hfs, hi, hn] <;> rfl
  | resize hi hn =>
    simp only [Nat.reducePow] at hi hn
    cases rest <;> simp [parseRequest, hfs, hi, hn] <;> rfl
  | release hi =>
    simp only [Nat.reducePow] at hi
    cases rest <;> simp [parseRequest, hfs, hi] <;> rfl

theorem parseRequest_of_spells {cs : List Char} {q : Request} (h : Spells (fields cs) q) :
    parseRequest cs = .ok q :=
  parseRequest_spells_append h (List.append_nil _).symm

/-- Fields that misspell a request fail with the detail of their first failed check. -/
theorem parseRequest_of_misspells {cs : List Char} {d : String} (h : Misspells (fields cs) d) :
    parseRequest cs = .error d := by
  generalize hfs : fields cs = fs at h
  cases h with
  | missingId hl =>
    simp [parseRequest, hfs, List.getElem?_eq_none hl]; rfl
  | badId hi =>
    simp only [Nat.reducePow] at hi
    simp [parseRequest, hfs, hi]; rfl
  | missingSize hk hi =>
    simp only [Nat.reducePow] at hi
    obtain ⟨id, hid⟩ := Option.isSome_iff_exists.mp hi
    rcases hk with rfl | rfl <;> simp [parseRequest, hfs, hid] <;> rfl
  | badSize hk hi hn =>
    simp only [Nat.reducePow] at hi hn
    obtain ⟨id, hid⟩ := Option.isSome_iff_exists.mp hi
    rcases hk with rfl | rfl <;> simp [parseRequest, hfs, hid, hn] <;> rfl
  | @unknown k i rest ha hr hf hi =>
    simp only [Nat.reducePow] at hi
    obtain ⟨id, hid⟩ := Option.isSome_iff_exists.mp hi
    have hne : ∀ c, k ≠ [c] → String.ofList k ≠ String.ofList [c] := fun c hc h =>
      hc (by simpa using congrArg String.toList h)
    simp [parseRequest, hfs, hid]
    split
    · exact absurd ‹_› (hne 'a' ha)
    · exact absurd ‹_› (hne 'r' hr)
    · exact absurd ‹_› (hne 'f' hf)
    · rfl
  | extra hs => exact parseRequest_spells_append hs hfs

/-- A line reads as a request exactly when its fields spell it. -/
theorem parseRequest_eq_ok_iff {cs : List Char} {q : Request} :
    parseRequest cs = .ok q ↔ Spells (fields cs) q := by
  refine ⟨fun h => ?_, parseRequest_of_spells⟩
  rcases spells_or_misspells (fields cs) with ⟨q', hq'⟩ | ⟨d, hd⟩
  · rw [parseRequest_of_spells hq'] at h
    cases h
    exact hq'
  · rw [parseRequest_of_misspells hd] at h
    cases h

/-- A line fails to read exactly when its fields misspell a request, with that detail. -/
theorem parseRequest_eq_error_iff {cs : List Char} {d : String} :
    parseRequest cs = .error d ↔ Misspells (fields cs) d := by
  refine ⟨fun h => ?_, parseRequest_of_misspells⟩
  rcases spells_or_misspells (fields cs) with ⟨q, hq⟩ | ⟨d', hd'⟩
  · rw [parseRequest_of_spells hq] at h
    cases h
  · rw [parseRequest_of_misspells hd'] at h
    cases h
    exact hd'

end Fields

section Reading

/-- What a line holds: nothing if, once trimmed, it is empty or a comment; else the request
its trimmed text spells, or what is wrong with it. -/
def lineRequest (l : List Char) : Except String (Option Request) :=
  if (trimBlank l).isEmpty || (trimBlank l).head? == some '#' then .ok none
  else (parseRequest (trimBlank l)).map some

/-- A line that spells a request is neither empty nor a comment: it starts with its kind. -/
theorem Spells.kept {l : List Char} {q : Request} (h : Spells (fields l) q) :
    ((trimBlank l).isEmpty || (trimBlank l).head? == some '#') = false := by
  rw [← fields_trimBlank] at h
  obtain ⟨c, rest, hfs, hc⟩ := h.head
  cases ht : trimBlank l with
  | nil => rw [ht] at hfs; cases hfs
  | cons d ds =>
    simp only [List.isEmpty_cons, List.head?_cons, Bool.false_or, beq_eq_false_iff_ne, ne_eq,
      Option.some.injEq]
    rintro rfl
    obtain ⟨w, ws, hw⟩ := fields_cons (c := '#') (by decide) ds
    rw [ht, hw] at hfs
    simp only [List.cons.injEq] at hfs
    rcases hc with rfl | rfl | rfl <;> simp at hfs

theorem Misspells.not_spells {cs : List Char} {d : String} (h : Misspells (fields cs) d)
    (q : Request) : ¬ Spells (fields cs) q := fun hq => by
  have := (parseRequest_of_spells hq).symm.trans (parseRequest_of_misspells h)
  cases this

theorem lineRequest_of_blank {l : List Char} (h : trimBlank l = []) : lineRequest l = .ok none := by
  simp [lineRequest, h]

theorem lineRequest_of_comment {l : List Char} (h : (trimBlank l).head? = some '#') :
    lineRequest l = .ok none := by
  simp [lineRequest, h]

theorem lineRequest_of_spells {l : List Char} {q : Request} (h : Spells (fields l) q) :
    lineRequest l = .ok (some q) := by
  rw [lineRequest, if_neg (by simp [h.kept]),
    parseRequest_of_spells (by rwa [fields_trimBlank])]
  rfl

theorem lineRequest_of_misspells {l : List Char} {d : String} (hb : trimBlank l ≠ [])
    (hc : (trimBlank l).head? ≠ some '#') (h : Misspells (fields l) d) :
    lineRequest l = .error d := by
  rw [lineRequest, if_neg (by simpa [List.isEmpty_iff] using ⟨hb, hc⟩),
    parseRequest_of_misspells (by rwa [fields_trimBlank])]
  rfl

/-- The lines `ls`, numbered after `n`, read as the outcomes `out`: the record of each line
that spells a request, skipping empty lines and comments, and, at the first malformed
line, its failure and nothing after it. -/
inductive ReadsLines : Nat → List (List Char) → List (Except TraceError Record) → Prop
  | nil {n : Nat} : ReadsLines n [] []
  | blank {n : Nat} {l : List Char} {ls out} : trimBlank l = [] → ReadsLines (n + 1) ls out →
      ReadsLines n (l :: ls) out
  | comment {n : Nat} {l : List Char} {ls out} : (trimBlank l).head? = some '#' →
      ReadsLines (n + 1) ls out → ReadsLines n (l :: ls) out
  | request {n : Nat} {l : List Char} {ls out} {q : Request} : Spells (fields l) q →
      ReadsLines (n + 1) ls out → ReadsLines n (l :: ls) (.ok ⟨n + 1, q⟩ :: out)
  | malformed {n : Nat} {l : List Char} {ls} {d : String} : trimBlank l ≠ [] →
      (trimBlank l).head? ≠ some '#' → Misspells (fields l) d →
      ReadsLines n (l :: ls) [.error (.malformed (n + 1) d)]

/-- Every text's lines read as some outcomes. -/
theorem ReadsLines.exists : ∀ (n : Nat) (ls : List (List Char)), ∃ out, ReadsLines n ls out
  | _, [] => ⟨[], .nil⟩
  | n, l :: ls => by
    obtain ⟨out, h⟩ := ReadsLines.exists (n + 1) ls
    by_cases hb : trimBlank l = []
    · exact ⟨out, .blank hb h⟩
    by_cases hc : (trimBlank l).head? = some '#'
    · exact ⟨out, .comment hc h⟩
    rcases spells_or_misspells (fields l) with ⟨q, hq⟩ | ⟨d, hd⟩
    · exact ⟨_, .request hq h⟩
    · exact ⟨_, .malformed hb hc hd⟩

/-- Reading yields records, then at most one failure, which ends it. -/
theorem ReadsLines.shape {n : Nat} {ls : List (List Char)} {out : List (Except TraceError Record)}
    (h : ReadsLines n ls out) :
    (∃ rs : List Record, out = rs.map .ok) ∨
      ∃ (rs : List Record) (e : TraceError), out = rs.map .ok ++ [.error e] := by
  induction h with
  | nil => exact .inl ⟨[], rfl⟩
  | blank _ _ ih => exact ih
  | comment _ _ ih => exact ih
  | request _ _ ih =>
    rcases ih with ⟨rs, rfl⟩ | ⟨rs, e, rfl⟩
    · exact .inl ⟨_ :: rs, rfl⟩
    · exact .inr ⟨_ :: rs, e, rfl⟩
  | malformed => exact .inr ⟨[], _, rfl⟩

/-- Reading yields only records exactly when every line, trimmed, is empty, a comment or
spells a request. -/
theorem ReadsLines.records_iff {n : Nat} {ls : List (List Char)}
    {out : List (Except TraceError Record)} (h : ReadsLines n ls out) :
    (∃ rs : List Record, out = rs.map .ok) ↔
      ∀ l ∈ ls, trimBlank l = [] ∨ (trimBlank l).head? = some '#' ∨ ∃ q, Spells (fields l) q := by
  induction h with
  | nil => simp
  | blank hb _ ih => rw [List.forall_mem_cons, ← ih]; simp [hb]
  | comment hc _ ih => rw [List.forall_mem_cons, ← ih]; simp [hc]
  | request hq _ ih =>
    rw [List.forall_mem_cons, ← ih]
    constructor
    · rintro ⟨_ | ⟨r, rs⟩, hrs⟩
      · cases hrs
      · simp only [List.map_cons, List.cons.injEq] at hrs
        exact ⟨.inr (.inr ⟨_, hq⟩), rs, hrs.2⟩
    · rintro ⟨-, rs, rfl⟩
      exact ⟨_ :: rs, rfl⟩
  | malformed hb hc hd =>
    refine iff_of_false ?_ fun hall => ?_
    · rintro ⟨_ | ⟨r, rs⟩, hrs⟩ <;> simp at hrs
    · rcases hall _ List.mem_cons_self with hb' | hc' | ⟨q, hq⟩
      exacts [hb hb', hc hc', hd.not_spells q hq]

end Reading

end Trace

end Allocator
