import CtlTableau.Clausal.Qdimacs
import Mathlib.Data.Char
import Mathlib.Data.List.Chain
import Std.Data.String.ToInt

/-!
# The exchange format loses nothing

Whoever reads the text of a clause form line by line finds the form again (`qdimacs_reads_back`). A
newline ends every line and stands nowhere else, a blank stands between two words and nowhere else;
so the text has the words that were written into it (`words_qdimacs`), and a number is read as it was
written. The runs of equal quantifiers are taken apart as they were put together (`flatMap_blocks`),
and a line of a run is told from a line of a clause by its first word.
-/

namespace CtlTableau.ClauseForm

/-! ## 1. The words of a text -/

/-- A text that stays in one piece. -/
structure IsWord (w : String) : Prop where
  blank : ' ' ∉ w.toList
  newline : '\n' ∉ w.toList

/-- A text of complete lines with these words: whatever follows starts on a new line. -/
def Complete (s : String) (rows : List (List String)) : Prop :=
  ∀ t, words (s ++ t) = rows ++ words t

/-- The pieces on both sides of a separator. -/
theorem pieces_append (c : Char) (s t : String) :
    pieces c (s ++ String.singleton c ++ t) = pieces c s ++ pieces c t := by
  simp only [pieces, String.toList_split_char, String.toList_append, String.toList_singleton,
    List.append_assoc, List.singleton_append, List.splitOn_append_cons_self, List.map_append]

/-- Words that are joined with a separator fall apart again. -/
theorem pieces_intercalate {c : Char} {ws : List String} (hne : ws ≠ [])
    (h : ∀ w ∈ ws, c ∉ w.toList) : pieces c ((String.singleton c).intercalate ws) = ws :=
  (String.toList_split_intercalate h).trans (if_neg hne)

/-- A text without the separator is one piece. -/
theorem pieces_of_not_mem {c : Char} {s : String} (h : c ∉ s.toList) : pieces c s = [s] := by
  have one : pieces c ((String.singleton c).intercalate [s]) = [s] :=
    pieces_intercalate (List.cons_ne_nil _ _) (by simpa using h)
  rwa [String.intercalate_singleton] at one

/-- No character comes in that is neither in the separator nor in a word. -/
theorem not_mem_intercalate {c : Char} {separator : String} (hc : c ∉ separator.toList) :
    ∀ {ws : List String}, (∀ w ∈ ws, c ∉ w.toList) → c ∉ (separator.intercalate ws).toList
  | [], _ => by simp
  | [w], h => by simpa using h
  | w :: w' :: ws, h => by
    obtain ⟨first, later⟩ := List.forall_mem_cons.1 h
    rw [String.intercalate_cons_cons, String.toList_append, String.toList_append, List.mem_append,
      List.mem_append, not_or, not_or]
    exact ⟨⟨first, hc⟩, not_mem_intercalate hc later⟩

theorem words_empty : words "" = [[""]] := by
  rw [words, pieces_of_not_mem (by simp), List.map_singleton, pieces_of_not_mem (by simp)]

/-- Words on one line. -/
theorem complete_line {ws : List String} (hne : ws ≠ []) (h : ∀ w ∈ ws, IsWord w) :
    Complete (" ".intercalate ws ++ "\n") [ws] := by
  intro t
  have newline : '\n' ∉ (" ".intercalate ws).toList :=
    not_mem_intercalate (by decide) fun w hw => (h w hw).newline
  have split := pieces_append '\n' (" ".intercalate ws) t
  rw [pieces_of_not_mem newline] at split
  rw [words, words, show "\n" = String.singleton '\n' from rfl, split, List.map_append,
    List.map_singleton]
  exact congrArg (fun row => [row] ++ _) (pieces_intercalate hne fun w hw => (h w hw).blank)

theorem Complete.append {s s' : String} {rows rows' : List (List String)} (h : Complete s rows)
    (h' : Complete s' rows') : Complete (s ++ s') (rows ++ rows') := by
  intro t
  rw [String.append_assoc, h, h', List.append_assoc]

/-- A line for each member of a list. -/
theorem Complete.foldl {α : Type} {line : α → String} {row : α → List String} {s : String}
    {rows : List (List String)} (h : Complete s rows) (hline : ∀ a, Complete (line a) [row a])
    (as : List α) :
    Complete (as.foldl (fun s a => s ++ line a) s) (rows ++ as.map row) := by
  induction as generalizing s rows with
  | nil => simpa using h
  | cons a as ih => simpa using ih (h.append (hline a))

/-! ## 2. Numbers -/

/-- A written number consists of digits, and possibly a sign. -/
theorem mem_repr {n : Int} {c : Char} (h : c ∈ n.repr.toList) : c.isDigit = true ∨ c = '-' := by
  have digits : ∀ m : Nat, c ∈ m.repr.toList → c.isDigit = true := fun m hm =>
    Nat.isDigit_of_mem_toDigits (by decide) (by decide) (Nat.toList_repr ▸ hm)
  rw [Int.repr_eq_if] at h
  split at h
  · exact .inl (digits _ h)
  · rw [String.toList_append, List.mem_append] at h
    exact h.elim (fun h => .inr (by simpa using h)) fun h => .inl (digits _ h)

/-- It has none but such characters. -/
theorem not_mem_repr (n : Int) {c : Char} (hc : c.isDigit = false ∧ c ≠ '-') :
    c ∉ n.repr.toList := fun h =>
  (mem_repr h).elim (fun digit => by simp [hc.1] at digit) hc.2

theorem isWord_repr (n : Int) : IsWord n.repr where
  blank := not_mem_repr n (by decide)
  newline := not_mem_repr n (by decide)

/-- The words of a line of numbers. The line of no numbers starts with a blank. -/
def numberWords (ns : List Int) : List String :=
  (if ns = [] then [""] else ns.map Int.repr) ++ ["0"]

theorem numberWords_ne_nil (ns : List Int) : numberWords ns ≠ [] := by simp [numberWords]

theorem isWord_of_mem_numberWords {ns : List Int} {w : String} (h : w ∈ numberWords ns) :
    IsWord w := by
  rcases List.mem_append.1 h with h | h
  · split at h
    · cases List.mem_singleton.1 h
      constructor <;> simp
    · obtain ⟨n, -, rfl⟩ := List.mem_map.1 h
      exact isWord_repr n
  · cases List.mem_singleton.1 h
    exact isWord_repr 0

theorem intercalate_numberWords (ns : List Int) :
    " ".intercalate (numberWords ns) = " ".intercalate (ns.map Int.repr) ++ " 0" := by
  cases ns with
  | nil => rfl
  | cons n ns =>
    rw [numberWords, if_neg (List.cons_ne_nil _ _),
      String.intercalate_append_of_ne_nil (by simp) (by simp), String.intercalate_singleton,
      String.append_assoc]
    rfl

theorem repr_ne_empty (n : Int) : n.repr ≠ "" := by
  rw [Int.repr_eq_if]
  split
  · exact Nat.repr_ne_empty
  · simp

/-- The numbers are read as they were written. -/
theorem numbers?_numberWords (ns : List Int) : numbers? (numberWords ns) = some ns := by
  have filled : (numberWords ns).filter (· != "") = (ns ++ [0]).map Int.repr := by
    cases ns with
    | nil => rfl
    | cons n ns =>
      rw [numberWords, if_neg (List.cons_ne_nil _ _), List.map_append]
      refine List.filter_eq_self.2 fun w hw => ?_
      rw [show ["0"] = [(0 : Int)].map Int.repr from rfl, ← List.map_append] at hw
      obtain ⟨m, -, rfl⟩ := List.mem_map.1 hw
      simp [repr_ne_empty]
  have read : ((ns ++ [0]).map Int.repr).mapM String.toInt? = some (ns ++ [0]) := by
    rw [List.mapM_map, show String.toInt? ∘ Int.repr = pure from funext Int.toInt?_repr]
    exact List.mapM_pure.trans (congrArg some (List.map_id _))
  rw [numbers?, filled, read]
  simp

/-! ## 3. Runs of equal quantifiers -/

/-- **The runs are taken apart as they were put together.** -/
theorem flatMap_blocks (bs : List (Quantifier × Nat)) :
    (blocks bs).flatMap (fun b => b.2.map (b.1, ·)) = bs := by
  induction bs with
  | nil => rfl
  | cons b bs ih =>
    obtain ⟨k, x⟩ := b
    rw [blocks]
    cases hrest : blocks bs with
    | nil =>
      rw [hrest] at ih
      rw [← ih]
      rfl
    | cons run runs =>
      rw [hrest] at ih
      rw [← ih]
      obtain ⟨k', xs⟩ := run
      by_cases hk : k = k' <;> simp [hk]

/-- **Two runs that follow each other differ**, else they were one. -/
theorem isChain_blocks (bs : List (Quantifier × Nat)) :
    (blocks bs).IsChain (fun b b' => b.1 ≠ b'.1) := by
  induction bs with
  | nil => exact .nil
  | cons b bs ih =>
    obtain ⟨k, x⟩ := b
    rw [blocks]
    cases hrest : blocks bs with
    | nil => exact .singleton _
    | cons run runs =>
      rw [hrest] at ih
      obtain ⟨k', xs⟩ := run
      by_cases hk : k = k'
      · subst hk
        simp only [if_true]
        cases ih with
        | singleton => exact .singleton _
        | cons_cons differ later => exact .cons_cons differ later
      · simp only [hk, if_false]
        exact .cons_cons hk ih

/-! ## 4. The lines of a clause form -/

/-- The words of the line of a run. -/
def blockWords (b : Quantifier × List Nat) : List String :=
  letter b.1 :: numberWords (b.2.map Int.ofNat)

/-- The words of the header. -/
def headerWords (form : ClauseForm) : List String :=
  ["p", "cnf", toString form.numVars, toString form.clauses.size]

theorem complete_blockLine (b : Quantifier × List Nat) :
    Complete (blockLine b) [blockWords b] := by
  have line : blockLine b = " ".intercalate (blockWords b) ++ "\n" := by
    rw [blockWords, String.intercalate_cons_of_ne_nil (numberWords_ne_nil _),
      intercalate_numberWords, blockLine, List.map_map]
    simp only [String.append_assoc]
    rfl
  rw [line]
  refine complete_line (List.cons_ne_nil _ _) (List.forall_mem_cons.2 ⟨?_, fun w hw => ?_⟩)
  · cases b.1 <;> constructor <;> decide
  · exact isWord_of_mem_numberWords hw

theorem complete_clauseLine (c : List Int) : Complete (clauseLine c) [numberWords c] := by
  have line : clauseLine c = " ".intercalate (numberWords c) ++ "\n" := by
    rw [intercalate_numberWords, String.append_assoc]
    rfl
  rw [line]
  exact complete_line (numberWords_ne_nil c) fun w hw => isWord_of_mem_numberWords hw

theorem complete_headerLine (form : ClauseForm) :
    Complete (headerLine form) [headerWords form] := by
  have line : headerLine form = " ".intercalate (headerWords form) ++ "\n" := by
    rw [headerLine, show "p cnf " = "p" ++ " " ++ "cnf" ++ " " from rfl]
    simp only [headerWords, String.intercalate_cons_cons, String.intercalate_singleton,
      String.append_assoc]
  rw [line]
  refine complete_line (List.cons_ne_nil _ _) fun w hw => ?_
  simp only [headerWords, List.mem_cons, List.not_mem_nil, or_false] at hw
  obtain rfl | rfl | rfl | rfl := hw
  · constructor <;> decide
  · constructor <;> decide
  · exact isWord_repr form.numVars
  · exact isWord_repr form.clauses.size

/-- **The words of the text**: those of the header, of the runs and of the clauses. -/
theorem words_qdimacs (form : ClauseForm) : words form.qdimacs =
    headerWords form :: ((blocks form.binders).map blockWords ++
      form.clauses.toList.map (fun c => numberWords c.toList) ++ [[""]]) := by
  have quantified := (complete_headerLine form).foldl complete_blockLine (blocks form.binders)
  have all := quantified.foldl (fun c : Clause => complete_clauseLine c.toList) form.clauses.toList
  have whole := all ""
  rw [String.append_empty, words_empty] at whole
  exact whole

/-! ## 5. Reading back -/

theorem readBlock?_blockWords (b : Quantifier × List Nat) :
    readBlock? (blockWords b) = some (b.2.map (b.1, ·)) := by
  obtain ⟨k, xs⟩ := b
  cases k <;>
  · rw [blockWords, letter, readBlock?, numbers?_numberWords]
    simp

/-- The line of a clause starts with a number or a blank, not with a letter. -/
theorem readBlock?_numberWords (ns : List Int) : readBlock? (numberWords ns) = none := by
  cases ns with
  | nil => rfl
  | cons n ns =>
    have no_letter : ∀ c : Char, c.isDigit = false ∧ c ≠ '-' → n.repr ≠ String.singleton c :=
      fun c hc e => not_mem_repr n hc (by simp [e])
    have e := no_letter 'e' (by decide)
    have a := no_letter 'a' (by decide)
    rw [numberWords, if_neg (List.cons_ne_nil _ _), List.map_cons, List.cons_append, readBlock?]
    · exact fun ws h => e (List.cons.inj h).1
    · exact fun ws h => a (List.cons.inj h).1

theorem readLines_numberWords (cs : List (List Int)) :
    readLines (cs.map numberWords) = some ([], cs) := by
  induction cs with
  | nil => rfl
  | cons c cs ih =>
    simp [readLines, ih, readBlock?_numberWords, numbers?_numberWords]

theorem readLines_blockWords (bs : List (Quantifier × List Nat)) (cs : List (List Int)) :
    readLines (bs.map blockWords ++ cs.map numberWords) =
      some (bs.flatMap (fun b => b.2.map (b.1, ·)), cs) := by
  induction bs with
  | nil => exact readLines_numberWords cs
  | cons b bs ih => simp [readLines, ih, readBlock?_blockWords]

theorem ofList_toList {α : Type} [Ord α] [Std.TransOrd α] [Std.LawfulEqOrd α] (s : OrderedSet α) :
    OrderedSet.ofList s.toList = s :=
  OrderedSet.ext_mem fun _ => OrderedSet.mem_ofList

/-- A clause form is made of what stands in its lines. -/
theorem ofLists_toList (form : ClauseForm) :
    ofLists form.binders (form.clauses.toList.map (·.toList)) form.numVars = form := by
  have clauses : (form.clauses.toList.map (·.toList)).map OrderedSet.ofList =
      form.clauses.toList := by
    rw [List.map_map]
    exact (List.map_congr_left fun c _ => ofList_toList c).trans (List.map_id _)
  rw [ofLists, clauses, ofList_toList]

/-- **Reading gives the form back**, and the header announces as many clauses as there are. -/
theorem ofQdimacs?_qdimacs (form : ClauseForm) :
    ofQdimacs? form.qdimacs = some (form, form.clauses.size) := by
  have lines : form.clauses.toList.map (fun c => numberWords c.toList) =
      (form.clauses.toList.map (·.toList)).map numberWords := by rw [List.map_map]; rfl
  rw [ofQdimacs?, words_qdimacs, headerWords]
  have numVars : (toString form.numVars).toNat? = some form.numVars := Nat.toNat?_repr _
  have size : (toString form.clauses.size).toNat? = some form.clauses.size := Nat.toNat?_repr _
  simp only [List.dropLast_concat, lines, readLines_blockWords, flatMap_blocks, numVars, size,
    Option.bind_eq_bind, Option.bind_some, Option.pure_def, ofLists_toList]

theorem letter_injective : Function.Injective letter := by
  intro k k' h
  cases k <;> cases k' <;> first | rfl | exact absurd h (by decide)

/-- **The text loses nothing.** For every clause form, whatever its quantified variables, its clauses
    and the number of its variables, a reader who takes the two numbers of the header, then the lines
    of quantifiers and then those of clauses, each without its closing zero, finds the number of
    variables, the quantified variables in their order and the clauses, and so no other clause form
    has the same text. The lines after the header are first those that the reader takes for
    quantifiers, of which no two that follow each other have the same letter, and then those of
    clauses, of which there are as many as the header announces. -/
theorem qdimacs_reads_back :
    (∀ form, ofQdimacs? form.qdimacs = some (form, form.clauses.size)) ∧
      Function.Injective qdimacs ∧
      ∀ form : ClauseForm, ∃ quantified clauses : List (List String),
        words form.qdimacs =
          ["p", "cnf", toString form.numVars, toString clauses.length] ::
            (quantified ++ clauses ++ [[""]]) ∧
        (∀ line ∈ quantified, (readBlock? line).isSome) ∧
        (∀ line ∈ clauses, readBlock? line = none) ∧
        quantified.IsChain (fun line next => line.head? ≠ next.head?) := by
  refine ⟨ofQdimacs?_qdimacs, fun form form' same => ?_, fun form => ?_⟩
  · have read := ofQdimacs?_qdimacs form
    rw [same, ofQdimacs?_qdimacs form'] at read
    exact (congrArg Prod.fst (Option.some.inj read)).symm
  · refine ⟨(blocks form.binders).map blockWords,
      form.clauses.toList.map fun c => numberWords c.toList, ?_, fun line hline => ?_,
      fun line hline => ?_, ?_⟩
    · rw [words_qdimacs, List.length_map]
      rfl
    · obtain ⟨b, -, rfl⟩ := List.mem_map.1 hline
      rw [readBlock?_blockWords, Option.isSome_some]
    · obtain ⟨c, -, rfl⟩ := List.mem_map.1 hline
      exact readBlock?_numberWords c.toList
    · exact (List.isChain_map blockWords).2 ((isChain_blocks form.binders).imp
        fun _ _ differ same => differ (letter_injective (Option.some.inj same)))

end CtlTableau.ClauseForm
