import Mathlib.Data.List.Nodup
import Mathlib.Data.List.ProdSigma
import NetLabs.Library.Scan
import NetLabs.LinkState.Guard

/-! # The files a router starts from

`main` of `lsTemplate (1).c` reads the routers and the costs with `fscanf`, whose results it
does not look at. What `print_costs` writes is a file that it reads back. A file is the list
of its characters, and each of them stands for one byte. -/

namespace NetLabs.LinkState

open Scan

variable {N : ℕ}

/-! ## Reading -/

/-- What `%d` stores in an `int`, where it fits. -/
def toInt32? (n : ℤ) : Option Int32 :=
  if -2 ^ 31 ≤ n ∧ n < 2 ^ 31 then some (.ofInt n) else none

/-- `fscanf (fp, "%d", &x)` where `x` is `old`, with the input left. A number that does not
fit is undefined. -/
def fscanfInt (old : Int32) (text : List Char) : Option (Int32 × List Char) :=
  match scanInt text with
  | (some n, rest) => (toInt32? n).map fun x => (x, rest)
  | (none, rest) => some (old, rest)

/-- `%s` into `char s[size]`, one `char` for each byte. A word that does not fit with its null
is undefined. -/
def fscanfWord (size : ℕ) (text : List Char) : Option (Option (List Char) × List Char) :=
  match scanWord text with
  | (some w, rest) => if w.length < size then some (some w, rest) else none
  | (none, rest) => some (none, rest)

/-- The entries of the table, in the order of the two loops. -/
def entries (N : ℕ) : List (Fin N × Fin N) :=
  (List.finRange N).product (List.finRange N)

/-- `fscanf (fp, "%d", &costs[i][j])`. -/
def readCost (st : Costs N × List Char) (entry : Fin N × Fin N) :
    Option (Costs N × List Char) :=
  (fscanfInt (st.1 entry.1 entry.2) st.2).map fun (cost, rest) =>
    (st.1.store entry.1 entry.2 cost, rest)

/-- The table that the file of costs gives; it is global and holds zeros before. -/
def readCosts (N : ℕ) (text : List Char) : Option (Costs N) :=
  ((entries N).foldlM readCost (fun _ _ => 0, text)).map Prod.fst

/-- `ROUTERS`, an entry of the array `routers`. -/
structure Routers where
  name : List Char
  ip : List Char
  port : Int32
  deriving DecidableEq, Repr

/-- `fscanf (fp, "%s%s%d", routers[i].name, routers[i].ip, &routers[i].port)`, which stops at
the first conversion that fails. -/
def readRouter (router : Routers) (text : List Char) : Option (Routers × List Char) := do
  let (name, text) ← fscanfWord 50 text
  match name with
  | none => return (router, text)
  | some name =>
      let (ip, text) ← fscanfWord 50 text
      match ip with
      | none => return ({ router with name }, text)
      | some ip =>
          let (port, text) ← fscanfInt router.port text
          return ({ name, ip, port }, text)

/-- The loop over the routers; the array holds zeros before. -/
def readRouters (N : ℕ) (text : List Char) : Option (Fin N → Routers) :=
  ((List.finRange N).foldlM
    (fun (st : (Fin N → Routers) × List Char) i =>
      (readRouter (st.1 i) st.2).map fun (router, rest) =>
        (Function.update st.1 i router, rest))
    (fun _ => ⟨[], [], 0⟩, text)).map Prod.fst

/-- `atoi`: zero where no number begins. -/
def atoi (s : List Char) : Option Int32 :=
  toInt32? ((scanInt s).1.getD 0)

/-- What `main` has when it creates its socket. -/
structure Config (N : ℕ) where
  myid : Fin N
  routers : Fin N → Routers
  costs : Costs N

/-- `main` up to its socket, as the text of its error or what it has read. An `id` below zero
passes its check; the port that is then taken from `routers` is undefined. -/
def startup (N : ℕ) (argv : List (List Char)) (fopen : List Char → Option (List Char)) :
    Option (Except (List Char) (Config N)) :=
  match argv with
  | [_, id, nodes, routersName, costsName] => do
      let myid ← atoi id
      let nodes ← atoi nodes
      if N ≤ myid.toInt then return .error "wrong id\n".toList
      else if nodes.toInt ≠ N then return .error "wrong number of nodes\n".toList
      else
        match fopen routersName with
        | none => return .error ("can't open ".toList ++ routersName ++ ['\n'])
        | some text =>
            let routers ← readRouters N text
            match fopen costsName with
            | none => return .error ("can't open ".toList ++ costsName ++ ['\n'])
            | some text =>
                let costs ← readCosts N text
                let myid ← index myid
                return .ok { myid, routers, costs }
  | prog :: _ =>
      some (.error ("Usage: ".toList ++ prog ++
        " <id> <nodes> <routers> <cost table>\n".toList))
  | [] => none

/-! ## Printing -/

/-- One row of `print_costs`. -/
def printRow (row : Fin N → Int32) : List Char :=
  (List.finRange N).flatMap (fun j => printInt (row j).toInt ++ [' ']) ++ ['\n']

/-- `print_costs`, while nobody changes the table. -/
def printCosts (costs : Costs N) : List Char :=
  (List.finRange N).flatMap fun i => printRow (costs i)

/-! ## Files of numbers -/

/-- The text lists the numbers, apart by white space where two digits would meet, and ends
with `rest`. -/
inductive Listing : List Int32 → List Char → List Char → Prop
  | nil {ws rest : List Char} (hws : Spaces ws) : Listing [] (ws ++ rest) rest
  | cons {n : Int32} {ns : List Int32} {ws cs text rest : List Char} (hws : Spaces ws)
      (hcs : Numeral n.toInt cs) (hstop : StartsWithout Char.isDigit text)
      (hrest : Listing ns text rest) : Listing (n :: ns) (ws ++ cs ++ text) rest

/-- Neither a number nor a sign begins here, so no conversion takes anything. -/
def Stops (text : List Char) : Prop :=
  StartsWithout isSpace text ∧
    StartsWithout (fun c => c.isDigit || c == '-' || c == '+') text

instance (text : List Char) : Decidable (Stops text) :=
  inferInstanceAs (Decidable (_ ∧ _))

theorem toInt32?_toInt (n : Int32) : toInt32? n.toInt = some n := by
  have hle := n.le_toInt
  have hlt := n.toInt_lt
  rw [toInt32?, if_pos ⟨hle, hlt⟩, Int32.ofInt_toInt]

theorem fscanfInt_numeral {n old : Int32} {ws cs rest : List Char} (hws : Spaces ws)
    (hcs : Numeral n.toInt cs) (hrest : StartsWithout Char.isDigit rest) :
    fscanfInt old (ws ++ cs ++ rest) = some (n, rest) := by
  simp only [fscanfInt, scanInt_numeral hws hcs hrest, toInt32?_toInt, Option.map_some]

theorem fscanfInt_of_stops {old : Int32} {ws rest : List Char} (hws : Spaces ws)
    (hstop : Stops rest) : fscanfInt old (ws ++ rest) = some (old, rest) := by
  have hskip : skipSpace (ws ++ rest) = rest := skipSpace_append hws hstop.1
  have hstart : StartsWithout (fun c => c.isDigit || c == '-' || c == '+')
      (skipSpace (ws ++ rest)) := by
    rw [hskip]
    exact hstop.2
  simp [fscanfInt, scanInt_of_stop hstart, hskip]

theorem Costs.store_self (costs : Costs N) (i j : Fin N) :
    costs.store i j (costs i j) = costs := by
  simp [Costs.store]

/-- Once the numbers have run out, nothing more is stored. -/
theorem foldlM_readCost_of_stops (idx : List (Fin N × Fin N)) (now : Costs N)
    {ws rest : List Char} (hws : Spaces ws) (hstop : Stops rest) :
    ∃ rest', idx.foldlM readCost (now, ws ++ rest) = some (now, rest') := by
  induction idx generalizing ws with
  | nil => exact ⟨ws ++ rest, rfl⟩
  | cons p idx ih =>
      have hread : readCost (now, ws ++ rest) p = some (now, rest) := by
        simp [readCost, fscanfInt_of_stops hws hstop, Costs.store_self]
      obtain ⟨rest', hfold⟩ := ih .nil
      exact ⟨rest', by rw [List.foldlM_cons, hread]; exact hfold⟩

/-- Reading stores the numbers listed, one entry after the other. -/
theorem foldlM_readCost {goal : Costs N} {idx : List (Fin N × Fin N)} (hnodup : idx.Nodup)
    (now : Costs N) (k : ℕ) {text rest : List Char}
    (hlisting : Listing ((idx.take k).map fun p => goal p.1 p.2) text rest)
    (hstop : idx.length ≤ k ∨ Stops rest)
    (hdrop : ∀ p ∈ idx.drop k, now p.1 p.2 = goal p.1 p.2) :
    ∃ m rest', idx.foldlM readCost (now, text) = some (m, rest') ∧
      (∀ p ∈ idx, m p.1 p.2 = goal p.1 p.2) ∧ ∀ p ∉ idx, m p.1 p.2 = now p.1 p.2 := by
  induction idx generalizing now k text with
  | nil => exact ⟨now, text, rfl, by simp, fun _ _ => rfl⟩
  | cons p idx ih =>
      obtain ⟨hp, hnodup⟩ := List.nodup_cons.mp hnodup
      cases k with
      | zero =>
          rw [List.take_zero, List.map_nil] at hlisting
          cases hlisting with
          | nil hws =>
              obtain ⟨rest', hfold⟩ := foldlM_readCost_of_stops (p :: idx) now hws
                (hstop.resolve_left (by simp))
              exact ⟨now, rest', hfold, hdrop, fun _ _ => rfl⟩
      | succ k =>
          rw [List.take_succ_cons, List.map_cons] at hlisting
          cases hlisting with
          | @cons _ _ ws cs text _ hws hcs hdigit hrest =>
              have hread : readCost (now, ws ++ cs ++ text) p =
                  some (now.store p.1 p.2 (goal p.1 p.2), text) := by
                rw [readCost, fscanfInt_numeral hws hcs hdigit, Option.map_some]
              have hkeep : ∀ q, q ≠ p →
                  now.store p.1 p.2 (goal p.1 p.2) q.1 q.2 = now q.1 q.2 := by
                intro q hq
                rw [Costs.store_apply, if_neg fun heq => hq (Prod.ext heq.1 heq.2)]
              have hdrop' : ∀ q ∈ idx.drop k,
                  now.store p.1 p.2 (goal p.1 p.2) q.1 q.2 = goal q.1 q.2 := by
                intro q hq
                rw [hkeep q (ne_of_mem_of_not_mem (List.mem_of_mem_drop hq) hp)]
                exact hdrop q hq
              obtain ⟨m, rest', hfold, hin, hout⟩ := ih hnodup _ k hrest
                (hstop.imp_left Nat.le_of_succ_le_succ) hdrop'
              refine ⟨m, rest', by rw [List.foldlM_cons, hread]; exact hfold, ?_, ?_⟩
              · intro q hq
                rcases List.mem_cons.mp hq with rfl | hq
                · rw [hout q hp, Costs.store_apply, if_pos ⟨rfl, rfl⟩]
                · exact hin q hq
              · intro q hq
                obtain ⟨hne, hq⟩ := not_or.mp (List.mem_cons.not.mp hq)
                rw [hout q hq, hkeep q hne]

theorem length_entries (N : ℕ) : (entries N).length = N * N :=
  (List.length_product _ _).trans (by rw [List.length_finRange])

/-- A text that lists the first entries of a table is read as that table, if the others are
zero and nothing that follows is taken for one of them. -/
theorem readCosts_of_listing {costs : Costs N} {k : ℕ} {text rest : List Char}
    (h : Listing (((entries N).take k).map fun p => costs p.1 p.2) text rest)
    (hstop : N * N ≤ k ∨ Stops rest) (hzero : ∀ p ∈ (entries N).drop k, costs p.1 p.2 = 0) :
    readCosts N text = some costs := by
  have hnodup : (entries N).Nodup := (List.nodup_finRange N).product (List.nodup_finRange N)
  have hall : ∀ p : Fin N × Fin N, p ∈ entries N :=
    fun p => List.mem_product.mpr ⟨List.mem_finRange p.1, List.mem_finRange p.2⟩
  obtain ⟨m, rest', hfold, hin, _⟩ := foldlM_readCost hnodup (fun _ _ => 0) k h
    (length_entries N ▸ hstop) fun p hp => (hzero p hp).symm
  have hm : m = costs := by
    funext i j
    exact hin (i, j) (hall _)
  rw [readCosts, hfold, hm]
  rfl

theorem readCosts_of_table {costs : Costs N} {text rest : List Char}
    (h : Listing ((entries N).map fun p => costs p.1 p.2) text rest) :
    readCosts N text = some costs := by
  have hlength := length_entries N
  have hall : Listing (((entries N).take (N * N)).map fun p => costs p.1 p.2) text rest := by
    rwa [List.take_of_length_le hlength.le]
  refine readCosts_of_listing hall (.inl le_rfl) ?_
  intro p hp
  rw [List.drop_eq_nil_of_le hlength.le] at hp
  simp at hp

/-- The entries of a table that is given by a list, row by row. -/
theorem map_entries (f : ℕ → Int32) :
    (entries N).map (fun p => f (p.1 * N + p.2)) = List.ofFn fun k : Fin (N * N) => f k := by
  rw [List.ofFn_mul, entries, List.product, List.map_flatMap, List.flatMap_def, List.ofFn_eq_map]
  simp [List.ofFn_eq_map, Function.comp_def]

theorem Listing.spaces {ns : List Int32} {ws text rest : List Char} (hws : Spaces ws)
    (h : Listing ns text rest) : Listing ns (ws ++ text) rest := by
  cases h with
  | nil hws' =>
      rw [← List.append_assoc]
      exact .nil (List.forall_mem_append.mpr ⟨hws, hws'⟩)
  | cons hws' hcs hstop hrest =>
      rw [← List.append_assoc, ← List.append_assoc]
      exact .cons (List.forall_mem_append.mpr ⟨hws, hws'⟩) hcs hstop hrest

/-- Numbers printed with a blank after each continue a listing. -/
theorem Listing.printed {ms : List Int32} {text rest : List Char}
    (h : Listing ms text rest) (ns : List Int32) {ws : List Char} (hws : Spaces ws) :
    Listing (ns ++ ms) (ws ++ (ns.flatMap (fun n => printInt n.toInt ++ [' ']) ++ text))
      rest := by
  induction ns generalizing ws with
  | nil => exact h.spaces hws
  | cons n ns ih =>
      have hblank : Spaces [' '] := by simp [Spaces, isSpace]
      have hcons := Listing.cons hws (printInt_numeral n.toInt) (by simp [StartsWithout])
        (ih hblank)
      simpa [List.append_assoc] using hcons

theorem Listing.take {ns : List Int32} {text rest : List Char} (h : Listing ns text rest)
    (k : ℕ) : ∃ rest', Listing (ns.take k) text rest' := by
  induction h generalizing k with
  | @nil ws rest hws => exact ⟨rest, by simpa using Listing.nil hws⟩
  | @cons n ns ws cs text rest hws hcs hstop _ ih =>
      cases k with
      | zero => exact ⟨ws ++ cs ++ text, .nil .nil⟩
      | succ k =>
          obtain ⟨rest', hrest⟩ := ih k
          exact ⟨rest', .cons hws hcs hstop hrest⟩

/-- The file of costs is read number by number into the rows of the table. Where it ends
early, or goes on with neither a digit nor a sign, the entries that are left are zero; what
follows the last entry is ignored. -/
theorem readCosts_listing (ns : List Int32) (text rest : List Char) (h : Listing ns text rest)
    (hstop : N * N ≤ ns.length ∨ Stops rest) :
    readCosts N text = some fun i j : Fin N => (ns[(i * N + j : ℕ)]?).getD 0 := by
  let number : ℕ → Int32 := fun k => (ns[k]?).getD 0
  have hmap := map_entries (N := N) number
  obtain ⟨rest', hlisting, hstop'⟩ : ∃ rest', Listing (ns.take (N * N)) text rest' ∧
      (N * N ≤ ns.length ∨ Stops rest') := by
    rcases le_total (N * N) ns.length with hle | hle
    · obtain ⟨rest', hrest⟩ := h.take (N * N)
      exact ⟨rest', hrest, .inl hle⟩
    · rw [List.take_of_length_le hle]
      exact ⟨rest, h, hstop⟩
  refine readCosts_of_listing (k := ns.length) ?_ hstop' ?_
  · have hfirst : ((entries N).take ns.length).map (fun p => number (p.1 * N + p.2)) =
        ns.take (N * N) := by
      rw [List.map_take, hmap]
      refine List.ext_getElem (by simp [Nat.min_comm]) fun k hk hk' => ?_
      rw [List.length_take] at hk'
      simp [number, List.getElem?_eq_getElem (show k < ns.length by omega)]
    exact hfirst ▸ hlisting
  · intro p hp
    have hmem : number (p.1 * N + p.2) ∈ (List.ofFn fun k : Fin (N * N) => number k).drop
        ns.length := by
      rw [← hmap, ← List.map_drop]
      exact List.mem_map_of_mem hp
    obtain ⟨k, hk, heq⟩ := List.getElem_of_mem hmem
    rw [List.getElem_drop, List.getElem_ofFn] at heq
    change number (p.1 * N + p.2) = 0
    rw [← heq]
    simp [number]

/-- The third number is the last; the entry after it stays zero, also where a number follows
what is none. -/
theorem readCosts_listing_short :
    (readCosts 2 "0 7 7 x 5".toList).map (fun m => [m 0 0, m 0 1, m 1 0, m 1 1]) =
      some [0, 7, 7, 0] := by
  have hend : Listing [] "x 5".toList "x 5".toList := .nil .nil
  have htext : "0 7 7 x 5".toList = [] ++
      ([0, 7, 7].flatMap (fun n : Int32 => printInt n.toInt ++ [' ']) ++ "x 5".toList) := by
    decide +kernel
  rw [htext, readCosts_listing ([0, 7, 7] ++ []) _ _ (hend.printed [0, 7, 7] .nil)
    (.inr (by simp [Stops, StartsWithout, isSpace]))]
  rfl

/-! ## What `print_costs` writes -/

theorem listing_printCosts (costs : Costs N) :
    Listing ((entries N).map fun p => costs p.1 p.2) (printCosts costs) [] := by
  have hrows : ∀ rows : List (Fin N),
      Listing ((rows.product (List.finRange N)).map fun p => costs p.1 p.2)
        (rows.flatMap fun i => printRow (costs i)) [] := by
    intro rows
    induction rows with
    | nil => exact .nil .nil
    | cons i rows ih =>
        have hline : Spaces ['\n'] := by simp [Spaces, isSpace]
        have hrow := (ih.spaces hline).printed ((List.finRange N).map (costs i)) .nil
        simpa [List.product, printRow, List.flatMap_map, Function.comp_def] using hrow
  exact hrows (List.finRange N)

/-- What `print_costs` writes is a file of costs that is read back as the same table. -/
theorem readCosts_printCosts (costs : Costs N) :
    readCosts N (printCosts costs) = some costs :=
  readCosts_of_table (listing_printCosts costs)

/-! ## The file of routers -/

/-- A name or an address that fits into `char [50]`: fewer than 50 bytes. -/
structure Fits (w : List Char) : Prop where
  token : Token w
  length_lt : w.length < 50

/-- White space between two fields. -/
structure Gap (ws : List Char) : Prop where
  spaces : Spaces ws
  ne_nil : ws ≠ []

/-- The text lists the routers, field by field. -/
inductive Records : List Routers → List Char → Prop
  | nil (text : List Char) : Records [] text
  | cons {router : Routers} {rs : List Routers} {ws gap gap' cs text : List Char}
      (hws : Spaces ws) (hname : Fits router.name) (hgap : Gap gap) (hip : Fits router.ip)
      (hgap' : Gap gap') (hcs : Numeral router.port.toInt cs)
      (hstop : StartsWithout Char.isDigit text) (hrest : Records rs text) :
      Records (router :: rs)
        (ws ++ router.name ++ (gap ++ router.ip ++ (gap' ++ cs ++ text)))

theorem fscanfWord_token {ws w gap rest : List Char} (hws : Spaces ws) (hw : Fits w)
    (hgap : Gap gap) : fscanfWord 50 (ws ++ w ++ (gap ++ rest)) = some (some w, gap ++ rest) := by
  have hrest : gap ++ rest = [] ∨ ∃ c cs, gap ++ rest = c :: cs ∧ isSpace c = true := by
    obtain ⟨c, cs, rfl⟩ := List.exists_cons_of_ne_nil hgap.ne_nil
    exact .inr ⟨c, cs ++ rest, rfl, hgap.spaces c List.mem_cons_self⟩
  simp only [fscanfWord, scanWord_token hws hw.token hrest, if_pos hw.length_lt]

theorem readRouter_record {router old : Routers} {ws gap gap' cs text : List Char}
    (hws : Spaces ws) (hname : Fits router.name) (hgap : Gap gap) (hip : Fits router.ip)
    (hgap' : Gap gap') (hcs : Numeral router.port.toInt cs)
    (hstop : StartsWithout Char.isDigit text) :
    readRouter old (ws ++ router.name ++ (gap ++ router.ip ++ (gap' ++ cs ++ text))) =
      some (router, text) := by
  have hfirst : fscanfWord 50 (ws ++ router.name ++
      (gap ++ router.ip ++ (gap' ++ cs ++ text))) =
      some (some router.name, gap ++ router.ip ++ (gap' ++ cs ++ text)) := by
    rw [List.append_assoc gap]
    exact fscanfWord_token hws hname hgap
  have hsecond : fscanfWord 50 (gap ++ router.ip ++ (gap' ++ cs ++ text)) =
      some (some router.ip, gap' ++ cs ++ text) := by
    rw [List.append_assoc gap']
    exact fscanfWord_token hgap.spaces hip hgap'
  have hthird : fscanfInt old.port (gap' ++ cs ++ text) = some (router.port, text) :=
    fscanfInt_numeral hgap'.spaces hcs hstop
  simp only [readRouter, hfirst, hsecond, hthird, Option.bind_eq_bind, Option.bind_some]
  rfl

theorem readRouters_of_records {routers : Fin N → Routers} {text : List Char}
    (h : Records ((List.finRange N).map routers) text) :
    readRouters N text = some routers := by
  have hloop : ∀ (idx : List (Fin N)) (now : Fin N → Routers) (text : List Char), idx.Nodup →
      Records (idx.map routers) text → ∃ m rest, idx.foldlM
        (fun (st : (Fin N → Routers) × List Char) i =>
          (readRouter (st.1 i) st.2).map fun (router, rest) =>
            (Function.update st.1 i router, rest)) (now, text) = some (m, rest) ∧
        (∀ i ∈ idx, m i = routers i) ∧ ∀ i ∉ idx, m i = now i := by
    intro idx
    induction idx with
    | nil => exact fun now text _ _ => ⟨now, text, rfl, by simp, fun _ _ => rfl⟩
    | cons i idx ih =>
        intro now text hnodup hrecords
        obtain ⟨hi, hnodup⟩ := List.nodup_cons.mp hnodup
        cases hrecords with
        | @cons _ _ ws gap gap' cs text hws hname hgap hip hgap' hcs hstop hrest =>
            obtain ⟨m, rest, hfold, hin, hout⟩ :=
              ih (Function.update now i (routers i)) text hnodup hrest
            refine ⟨m, rest, ?_, ?_, ?_⟩
            · rw [List.foldlM_cons, readRouter_record hws hname hgap hip hgap' hcs hstop]
              exact hfold
            · intro k hk
              rcases List.mem_cons.mp hk with rfl | hk
              · rw [hout k hi, Function.update_self]
              · exact hin k hk
            · intro k hk
              obtain ⟨hne, hk⟩ := not_or.mp (List.mem_cons.not.mp hk)
              rw [hout k hk, Function.update_of_ne hne]
  obtain ⟨m, rest, hfold, hin, _⟩ := hloop _ _ text (List.nodup_finRange N) h
  have hm : m = routers := funext fun i => hin i (List.mem_finRange i)
  rw [readRouters, hfold, hm]
  rfl

/-! ## The start of `main` -/

theorem atoi_numeral {n : Int32} {s : List Char} (hs : Numeral n.toInt s) :
    atoi s = some n := by
  have hscan := scanInt_numeral .nil hs (show StartsWithout Char.isDigit [] by simp [StartsWithout])
  rw [List.nil_append, List.append_nil] at hscan
  simp [atoi, hscan, toInt32?_toInt]

/-- Started with its number on two files that list `N` routers and a whole table, every
router gets as far as its socket, with its own number and with these routers and costs. -/
theorem startup_of_files (hN : N < 2 ^ 31) (routers : Fin N → Routers) (costs : Costs N)
    (prog routersName costsName routersText costsText rest : List Char)
    (fopen : List Char → Option (List Char)) (hrouters : fopen routersName = some routersText)
    (hcosts : fopen costsName = some costsText)
    (hrecords : Records ((List.finRange N).map routers) routersText)
    (hlisting : Listing ((entries N).map fun p => costs p.1 p.2) costsText rest)
    (nodes : List Char) (hnodes : Numeral N nodes) (r : Fin N) (id : List Char)
    (hid : Numeral (r : ℕ) id) :
    startup N [prog, id, nodes, routersName, costsName] fopen =
      some (.ok { myid := r, routers, costs }) := by
  have hmyid : (Int32.ofNat r).toInt = r := toInt_ofNat hN.le r
  have hcount : (Int32.ofNat N).toInt = N := Int32.toInt_ofNat_of_lt hN
  have hatoi : atoi id = some (.ofNat r) := atoi_numeral (hmyid ▸ hid)
  have hatoi' : atoi nodes = some (.ofNat N) := atoi_numeral (hcount ▸ hnodes)
  have hread := readCosts_of_table hlisting
  have hlt : ¬ (N : ℤ) ≤ (Int32.ofNat r).toInt := by
    have := r.isLt
    omega
  simp only [startup, hatoi, hatoi', hrouters, hcosts, readRouters_of_records hrecords, hread,
    index_ofNat hN.le, Option.bind_eq_bind, Option.bind_some, if_neg hlt, hcount, ne_eq,
    not_true_eq_false, if_false]
  rfl

/-- Router 1 of two, on a file of costs that `print_costs` has written. -/
theorem startup_of_files_two :
    ∃ fopen : List Char → Option (List Char),
      fopen "routers".toList = some "M1 127.0.0.1\t5000\nM2 127.0.0.1\t6000\n".toList ∧
      fopen "costs".toList = some (printCosts fun _ _ : Fin 2 => 7) ∧
      (startup 2 ["ls".toList, ['1'], ['2'], "routers".toList, "costs".toList] fopen).map
        (fun result => result.toOption.map fun config =>
          (config.myid, (config.routers 1).port, config.costs 0 1)) =
        some (some (1, 6000, 7)) := by
  let routers : Fin 2 → Routers := fun r =>
    if r = 0 then ⟨"M1".toList, "127.0.0.1".toList, 5000⟩
    else ⟨"M2".toList, "127.0.0.1".toList, 6000⟩
  let text := "M1 127.0.0.1\t5000\nM2 127.0.0.1\t6000\n".toList
  let fopen : List Char → Option (List Char) := fun name =>
    if name = "routers".toList then some text
    else if name = "costs".toList then some (printCosts fun _ _ : Fin 2 => 7) else none
  have hname : Fits "M1".toList ∧ Fits "M2".toList :=
    ⟨⟨⟨by simp, by simp [isSpace]⟩, by simp⟩, ⟨⟨by simp, by simp [isSpace]⟩, by simp⟩⟩
  have hip : Fits "127.0.0.1".toList := ⟨⟨by simp, by simp [isSpace]⟩, by simp⟩
  have hfits : ∀ r, Fits (routers r).name ∧ Fits (routers r).ip :=
    Fin.forall_fin_two.mpr ⟨⟨hname.1, hip⟩, hname.2, hip⟩
  have hblank : Gap [' '] := ⟨by simp [Spaces, isSpace], by simp⟩
  have htab : Gap ['\t'] := ⟨by simp [Spaces, isSpace], by simp⟩
  have hline : Spaces ['\n'] := by simp [Spaces, isSpace]
  have hrecords : Records ((List.finRange 2).map routers) text :=
    .cons .nil (hfits 0).1 hblank (hfits 0).2 htab (printInt_numeral 5000)
      (show StartsWithout Char.isDigit "\nM2 127.0.0.1\t6000\n".toList by simp [StartsWithout])
      (.cons hline (hfits 1).1 hblank (hfits 1).2 htab (printInt_numeral 6000)
        (show StartsWithout Char.isDigit "\n".toList by simp [StartsWithout]) (.nil _))
  have hmain := startup_of_files (N := 2) (by decide) routers (fun _ _ => 7) "ls".toList
    "routers".toList "costs".toList text _ [] fopen rfl rfl hrecords
    (listing_printCosts fun _ _ => 7) ['2'] (printInt_numeral 2) 1 ['1'] (printInt_numeral 1)
  refine ⟨fopen, rfl, rfl, ?_⟩
  rw [hmain]
  rfl

end NetLabs.LinkState
