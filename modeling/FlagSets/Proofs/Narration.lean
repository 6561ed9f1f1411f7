import FlagSets.Proofs.Hosts
import FlagSets.Proofs.PlainSearch
import FlagSets.Proofs.Undoing

/-!
# What a search tells

The values of which the condition holds, from the first one on, are the only ones that a search
tells about. The loop over trees puts a rejected bit back before it goes on, and keeps a count of
its own; neither leaves a trace in the messages, since they are just what the condition has accepted
among what it was asked about. That these values descend from each other by single bits is a
property of the pass over the bits, where nothing is ever put back.

What is heard of the messages is up to the verbosity, and nothing else about the search is.

## Main results

* `shrink_messages` : the loop tells the accepted values, and counts them.
* `walk_descends` : the accepted values lose one bit at a time, in ascending order.
* `run_tells` : what a search tells from beginning to end.
* `Host.finding_tells` : what is heard of it at each level, and that nothing else depends on this.
-/

namespace FlagSets

/-! ## The story of a search -/

/-- Whether the condition holds of a value. It does not where it fails. -/
def Query.accepts (query : Query) (v : Datum) : Bool :=
  match query.holds v with
  | .ok holds => holds
  | .error _ => false

theorem Query.accepts_iff {query : Query} {v : Datum} :
    query.accepts v = true ↔ query.holds v = .ok true := by
  rw [accepts]
  cases query.holds v with
  | error fault => simp
  | ok holds => simp

theorem Query.accepts_of_holds {query : Query} {v : Datum} {holds : Bool}
    (h : query.holds v = .ok holds) : query.accepts v = holds := by
  rw [accepts, h]

/-- Values in a row that begins with a given one: each is what is left of the one before when a set
bit is cleared, and the positions of these bits ascend from a given one. -/
inductive Descent (k : Kind) : Nat → Datum → List Datum → Prop
  | nil (position : Nat) (v : Datum) : Descent k position v []
  | cons {position b : Nat} {v w : Datum} {rest : List Datum} (hb : position ≤ b)
      (hcleared : k.Cleared b v w) (hrest : Descent k (b + 1) w rest) :
      Descent k position v (w :: rest)

theorem Descent.mono {k : Kind} {position earlier : Nat} {v : Datum} {chain : List Datum}
    (h : Descent k position v chain) (hle : earlier ≤ position) : Descent k earlier v chain := by
  cases h with
  | nil => exact .nil earlier v
  | cons hb hcleared hrest => exact .cons (hle.trans hb) hcleared hrest

/-- What happens in a search that returns: the first value of which the condition holds, those that
it is shrunk to one after another, and the last one of these. -/
structure Story (k : Kind) (query : Query) (limit : Int) (asked : List Datum) (first : Datum)
    (chain : List Datum) (result : Datum) : Prop where
  asked_eq : ∃ before after, asked = before ++ first :: after ∧
    ∀ u ∈ before, query.holds u = .ok false
  holds_first : query.holds first = .ok true
  descent : Descent k 0 first chain
  holds_chain : ∀ u ∈ chain, query.holds u = .ok true
  length_le : (chain.length : Int) ≤ limit
  last_eq : chain.getLastD first = result

namespace Story

/-- What is said about the first value. -/
def opening (first : Datum) : String := "Found example " ++ first.wording ++ ", shrinking"

/-- What is said in the end. -/
def closing (result : Datum) (shrinks : Nat) : String :=
  "Shrunk example to " ++ result.wording ++ " after " ++ toString shrinks ++ " shrinks"

/-- What is told, with the level of each message. -/
def messages (first : Datum) (chain : List Datum) (result : Datum) : List (Verbosity × String) :=
  (.verbose, opening first) ::
    (chain.map fun u => (.debug, Search.shrunkTo u)) ++ [(.verbose, closing result chain.length)]

/-- What is heard at a level. -/
def heardAt : Verbosity → Datum → List Datum → Datum → List String
  | .debug, first, chain, result =>
    opening first :: chain.map (fun u => "Shrunk example to " ++ u.wording) ++
      [closing result chain.length]
  | .verbose, first, chain, result => [opening first, closing result chain.length]
  | .normal, _, _, _ => []
  | .quiet, _, _, _ => []

end Story

/-! ## The loop over a tree -/

namespace Search

variable (query : Query) (limit : Int)

/-- The loop tells the values that the condition accepts, and counts them. -/
theorem shrink_messages [Memory] (steps kept : Nat) (tree : ValueTree) :
    let shrunk := shrink query limit steps kept tree
    let chain := shrunk.asked.filter query.accepts
    shrunk.messages = chain.map (fun u => (.debug, shrunkTo u)) ∧
      ∀ last n, shrunk.result = .ok (last, n) → n = kept + chain.length := by
  induction steps generalizing kept tree with
  | zero => exact ⟨rfl, by rintro last n ⟨⟩; rfl⟩
  | succ steps ih =>
      intro shrunk chain
      unfold chain shrunk shrink
      by_cases hlimit : limit ≤ kept
      · rw [if_pos hlimit]
        exact ⟨rfl, by rintro last n ⟨⟩; rfl⟩
      rw [if_neg hlimit]
      rcases ValueTree.simplify.run tree with ⟨fault | changed, next⟩
      · exact ⟨rfl, fun last n h => by cases h⟩
      cases changed with
      | false => exact ⟨rfl, by rintro last n ⟨⟩; rfl⟩
      | true =>
          dsimp only
          cases next.current with
          | error fault => exact ⟨rfl, fun last n h => by cases h⟩
          | ok value =>
              dsimp only
              cases hholds : query.holds value with
              | error fault => exact ⟨by simp [Query.accepts, hholds], fun last n h => by cases h⟩
              | ok holds =>
                  have haccepts := Query.accepts_of_holds hholds
                  cases holds with
                  | true =>
                      obtain ⟨hmessages, hcount⟩ := ih (kept + 1) next
                      simp only [Account.after, List.singleton_append,
                        List.filter_cons_of_pos haccepts]
                      refine ⟨by rw [hmessages, List.map_cons], fun last n hresult => ?_⟩
                      have hn := hcount last n hresult
                      rw [List.length_cons]
                      omega
                  | false =>
                      -- the bit goes back, and nothing is told or counted
                      cases ValueTree.complicate.run next with
                      | mk answer last =>
                          cases answer with
                          | error fault => exact ⟨by simp [haccepts], fun last n h => by cases h⟩
                          | ok _ =>
                              obtain ⟨hmessages, hcount⟩ := ih kept last
                              simp only [Account.after, List.singleton_append, List.nil_append,
                                List.filter_cons_of_neg (Bool.eq_false_iff.mp haccepts)]
                              exact ⟨hmessages, hcount⟩

/-- Shrinking an example that comes to a result tells of the example, of what the condition accepts,
and of the result. -/
theorem minimise_messages [Memory] {tree : ValueTree} {first result : Datum}
    (hfirst : tree.current = .ok first)
    (hresult : (minimise query limit tree).result = .ok result) :
    (minimise query limit tree).messages =
      Story.messages first ((minimise query limit tree).asked.filter query.accepts) result := by
  obtain ⟨hmessages, hcount⟩ := shrink_messages query limit (tree.measure + 1) 0 tree
  unfold minimise at hresult ⊢
  rw [hfirst] at hresult ⊢
  dsimp only at hresult ⊢
  unfold Account.andThen at hresult ⊢
  generalize shrink query limit (tree.measure + 1) 0 tree = shrunk at *
  obtain ⟨fault | ⟨last, kept⟩, asked, messages⟩ := shrunk
  · cases hresult
  · dsimp only at hresult hmessages hcount ⊢
    cases hlast : last.current with
    | error fault =>
        rw [hlast] at hresult
        dsimp only [Account.after] at hresult
        cases hresult
    | ok value =>
        rw [hlast] at hresult
        dsimp only [Account.after] at hresult
        obtain rfl := Except.ok.inj hresult
        have hkept := hcount last kept rfl
        rw [Nat.zero_add] at hkept
        simp only [Account.after, List.append_nil, hmessages, hkept]
        rfl

end Search

/-! ## The pass over the bits -/

namespace Plain

variable {k : Kind} (query : Query) (least limit : Int)

/-- The values that the pass over the bits accepts lose one bit at a time. They are kept within the
limit, and the last one is the result, unless the condition fails. -/
theorem walk_descends {v : Datum} (hv : k.IsValue v) {bits : List Nat} {position : Nat}
    (hset : ∀ b ∈ bits, k.has v b = true) (hsorted : bits.Pairwise (· < ·))
    (hposition : ∀ b ∈ bits, position ≤ b) (kept : Nat) :
    let walked := walk k query least limit bits kept v
    let chain := walked.1.filter query.accepts
    Descent k position v chain ∧ (chain = [] ∨ (kept + chain.length : Int) ≤ limit) ∧
      (∀ r, walked.2 = .ok r → chain.getLastD v = r) ∧
      ∀ fault, walked.2 = .error fault → ∃ u ∈ walked.1, query.holds u = .error fault := by
  induction bits generalizing v position kept with
  | nil => exact ⟨.nil _ _, .inl rfl, fun r h => by cases h; rfl, fun fault h => by cases h⟩
  | cons b rest ih =>
      intro walked chain
      unfold chain walked walk
      split
      · exact ⟨.nil _ _, .inl rfl, fun r h => by cases h; rfl, fun fault h => by cases h⟩
      rename_i hgo
      obtain ⟨hless, hrest⟩ := List.pairwise_cons.mp hsorted
      have hb : k.has v b = true := hset b List.mem_cons_self
      cases hholds : query.holds (k.without v b) with
      | error fault =>
          have haccepts : query.accepts (k.without v b) = false := by rw [Query.accepts, hholds]
          dsimp only
          rw [List.filter_cons_of_neg (Bool.eq_false_iff.mp haccepts)]
          refine ⟨.nil _ _, .inl rfl, fun r h => (by cases h), ?_⟩
          rintro _ ⟨⟩
          exact ⟨_, List.mem_singleton_self _, hholds⟩
      | ok holds =>
          have haccepts := Query.accepts_of_holds hholds
          cases holds with
          | true =>
              -- the bits behind are other ones, and stay set
              have hstill : ∀ i ∈ rest, k.has (k.without v b) i = true := by
                intro i hi
                have hlt := hless i hi
                rw [hv.has_without, hset i (List.mem_cons_of_mem b hi), Bool.and_true]
                exact bne_iff_ne.mpr (by omega)
              have hbehind : ∀ i ∈ rest, b + 1 ≤ i := hless
              obtain ⟨hdescent, hcount, hresult, hfault⟩ := ih (hv.without b) hstill hrest hbehind
                (kept + 1)
              dsimp only
              rw [List.filter_cons_of_pos haccepts]
              refine ⟨.cons (hposition b List.mem_cons_self) (hv.cleared hb) hdescent, .inr ?_,
                fun r h => ?_, fun fault h => ?_⟩
              · rcases hcount with hnil | hle
                · rw [hnil, List.length_singleton]
                  omega
                · rw [List.length_cons]
                  omega
              · rw [← hresult r h]
                exact List.getLastD_cons
              · obtain ⟨u, hu, heq⟩ := hfault fault h
                exact ⟨u, List.mem_cons_of_mem _ hu, heq⟩
          | false =>
              -- a rejected value is passed over, and the pass goes on from the one before it
              obtain ⟨hdescent, hcount, hresult, hfault⟩ := ih hv
                (fun i hi => hset i (List.mem_cons_of_mem b hi)) hrest
                (fun i hi => hposition i (List.mem_cons_of_mem b hi)) kept
              dsimp only
              rw [List.filter_cons_of_neg (Bool.eq_false_iff.mp haccepts)]
              refine ⟨hdescent, hcount, hresult, fun fault h => ?_⟩
              obtain ⟨u, hu, heq⟩ := hfault fault h
              exact ⟨u, List.mem_cons_of_mem _ hu, heq⟩

end Plain

/-! ## The whole search -/

namespace Search

variable {k : Kind} {s : Strategy} (query : Query)

/-- Drawing tells nothing. Where it ends with a tree, the condition holds of the value of this one,
and of none of those before. -/
theorem generate_draws [Memory] (hk : k.IsStandard) (hs : s.WellFormed k) (attempts : Nat)
    (source : Source) :
    let drawn := (generate s query attempts source).1
    drawn.messages = [] ∧ ∀ tree, drawn.result = .ok tree →
      s.Fresh k tree ∧ query.holds tree.held = .ok true ∧
        ∃ before, drawn.asked = before ++ [tree.held] ∧
          ∀ u ∈ before, query.holds u = .ok false := by
  induction attempts generalizing source with
  | zero => exact ⟨rfl, fun tree h => by cases h⟩
  | succ attempts ih =>
      intro drawn
      unfold drawn generate
      rcases hrun : s.newTree.run source with ⟨fault | tree, left⟩
      · exact ⟨rfl, fun tree h => by cases h⟩
      have hfresh := (Strategy.newTree_returns hk hs).of_run hrun
      simp only [hfresh.current_eq hk hs]
      cases hholds : query.holds tree.held with
      | error fault => exact ⟨rfl, fun tree h => by cases h⟩
      | ok holds =>
          cases holds with
          | true =>
              refine ⟨rfl, ?_⟩
              rintro _ ⟨⟩
              exact ⟨hfresh, hholds, [], rfl, fun u hu => by cases hu⟩
          | false =>
              obtain ⟨hmessages, hfound⟩ := ih left
              refine ⟨hmessages, fun found hresult => ?_⟩
              obtain ⟨hfresh', hholds', before, hasked, hbefore⟩ := hfound found hresult
              refine ⟨hfresh', hholds', tree.held :: before, congrArg (tree.held :: ·) hasked, ?_⟩
              exact List.forall_mem_cons.mpr ⟨hholds, hbefore⟩

/-- Shrinking the first example tells of the values it is shrunk to, and fails only where the
condition does. -/
theorem minimise_tells [Memory] (limit : Int) (hk : k.IsStandard) (hs : s.WellFormed k)
    {tree : ValueTree} (htree : s.Fresh k tree) :
    let told := minimise query limit tree
    let chain := told.asked.filter query.accepts
    Descent k 0 tree.held chain ∧ (chain = [] ∨ (chain.length : Int) ≤ limit) ∧
      (∀ r, told.result = .ok r →
        chain.getLastD tree.held = r ∧ told.messages = Story.messages tree.held chain r) ∧
      ∀ fault, told.result = .error fault → ∃ u ∈ told.asked, query.holds u = .error fault := by
  intro told chain
  have hv := htree.isValue hk hs
  obtain ⟨hasked, hresult⟩ := minimise_eq_walk query limit hk hs htree
  have hset : ∀ b ∈ k.bitsFrom tree.held 0, k.has tree.held b = true :=
    fun b hb => (hv.mem_bitsFrom.mp hb).2
  obtain ⟨hdescent, hcount, hlast, hfault⟩ := Plain.walk_descends query s.floor limit hv hset
    (k.pairwise_bitsFrom tree.held 0) (fun b _ => Nat.zero_le b) 0
  rw [← hasked] at hdescent hcount hlast hfault
  rw [← hresult] at hlast hfault
  refine ⟨hdescent, ?_, fun r hr => ⟨hlast r hr, ?_⟩, hfault⟩
  · exact hcount.imp_right fun hle => by simpa using hle
  · exact minimise_messages query limit (htree.current_eq hk hs) hr

/-- A search that returns tells its story. One that does not tells nothing, unless it is the
condition that failed. -/
theorem run_tells [Memory] (hk : k.IsStandard) (hs : s.WellFormed k) {settings : Settings}
    {limit : Int} (hlimit : budget settings.maxShrinks = limit) (hpos : 0 ≤ limit)
    (source : Source) :
    let account := (run s query settings source).1
    (∀ r, account.result = .ok r → ∃ first chain, Story k query limit account.asked first chain r ∧
        account.messages = Story.messages first chain r) ∧
      ∀ fault, account.result = .error fault →
        account.messages = [] ∨ ∃ u ∈ account.asked, query.holds u = .error fault := by
  intro account
  obtain ⟨hsilent, hfound⟩ := generate_draws query hk hs
    (budget settings.maxExamples).toNat source
  unfold account run
  generalize generate s query _ source = drawn at hsilent hfound ⊢
  obtain ⟨⟨fault | tree, asked, messages⟩, left⟩ := drawn
  · -- without an example there is nothing to tell yet
    exact ⟨fun r h => (by cases h), fun _ _ => .inl hsilent⟩
  obtain rfl : messages = [] := hsilent
  obtain ⟨htree, hholds, before, hasked, hbefore⟩ := hfound tree rfl
  obtain rfl : asked = before ++ [tree.held] := hasked
  obtain ⟨hdescent, hcount, hreturn, hfault⟩ := minimise_tells query limit hk hs htree
  rw [hlimit]
  simp only [Account.andThen, Account.after, List.nil_append]
  refine ⟨fun r hr => ?_, fun fault hr => .inr ?_⟩
  · obtain ⟨hlast, hmessages⟩ := hreturn r hr
    refine ⟨tree.held, (minimise query limit tree).asked.filter query.accepts, ?_, hmessages⟩
    exact {
      asked_eq := ⟨before, _, by rw [List.append_assoc]; rfl, hbefore⟩
      holds_first := hholds
      descent := hdescent
      holds_chain := fun u hu => Query.accepts_iff.mp (List.mem_filter.mp hu).2
      length_le := by
        rcases hcount with hnil | hle
        · rw [hnil]
          exact hpos
        · exact hle
      last_eq := hlast }
  · obtain ⟨u, hu, heq⟩ := hfault fault hr
    exact ⟨u, List.mem_append_right _ hu, heq⟩

end Search

namespace Story

variable {first result : Datum} {chain : List Datum}

/-- Every message is at least of the level of the first and the last one. -/
private theorem rank_of_mem_messages {m : Verbosity × String}
    (h : m ∈ messages first chain result) : Verbosity.verbose.rank ≤ m.1.rank := by
  rcases List.mem_cons.mp h with rfl | h
  · exact Nat.le_refl _
  rcases List.mem_append.mp h with h | h
  · obtain ⟨u, -, rfl⟩ := List.mem_map.mp h
    exact Nat.le_succ _
  · rw [List.mem_singleton.mp h]

/-- What a verbosity lets through of a story. -/
theorem heard_messages {d : Datum} {v : Verbosity} (hd : d.equal (.num (.level v)) = true) :
    ((messages first chain result).filter fun m => isLoud d m.1).map Prod.snd =
      heardAt v first chain result := by
  simp only [isLoud_of_equal hd]
  have hsilent : v.rank < Verbosity.verbose.rank →
      (messages first chain result).filter (fun m => decide (m.1.rank ≤ v.rank)) = [] := by
    intro hv
    apply List.filter_eq_nil_iff.mpr
    intro m hm
    have := rank_of_mem_messages hm
    simp only [decide_eq_true_eq]
    omega
  cases v with
  | quiet => rw [hsilent (by decide), heardAt, List.map_nil]
  | normal => rw [hsilent (by decide), heardAt, List.map_nil]
  | verbose =>
      have hmiddle : (chain.map fun u => (Verbosity.debug, Search.shrunkTo u)).filter
          (fun m => decide (m.1.rank ≤ Verbosity.verbose.rank)) = [] := by
        apply List.filter_eq_nil_iff.mpr
        intro m hm
        obtain ⟨u, -, rfl⟩ := List.mem_map.mp hm
        exact (by decide : ¬ decide (Verbosity.debug.rank ≤ Verbosity.verbose.rank) = true)
      rw [messages, List.cons_append, List.filter_cons_of_pos rfl, List.filter_append, hmiddle]
      rfl
  | debug =>
      have hall : (messages first chain result).filter
          (fun m => decide (m.1.rank ≤ Verbosity.debug.rank)) = messages first chain result := by
        apply List.filter_eq_self.mpr
        intro m _
        obtain ⟨level, text⟩ := m
        cases level <;> rfl
      rw [hall, messages, heardAt, List.map_append, List.map_cons, List.map_map]
      rfl

end Story

/-! ## What is heard -/

namespace Host

variable {k : Kind} {s : Strategy} {query : Query} {ω : Type} {h : Host ω} {w : ω} {c : Settings}

/-- The settings that a search goes by are valid, whether they are given or in force. -/
private theorem valid_getD (hc : c.Valid) {given : Option Settings}
    (hgiven : ∀ g ∈ given, g.Valid) : (given.getD c).Valid := by
  cases given with
  | none => exact hc
  | some g => exact hgiven g rfl

/-- In every state of an orderly program it is valid settings that are in force. -/
private theorem Orderly.valid (hord : h.Orderly)
    (hforce : (h.session w).inForce.value = .settings c) : c.Valid := by
  obtain ⟨d, hd, hvalid⟩ := hord w
  cases hforce.symm.trans hd
  exact hvalid

/-- In a program where nobody changes what is in force, a search that returns is heard at the level
in force. One that does not is not heard at all, unless it is the condition that failed. -/
private theorem finding_heard [Memory] (hk : k.IsStandard) (hs : s.WellFormed k)
    (hpure : h.Pure query) (hord : h.Orderly) (hsteady : h.Steady)
    (hforce : (h.session w).inForce.value = .settings c) {given : Option Settings}
    (hgiven : ∀ g ∈ given, g.Valid) {limit : Int}
    (hlimit : (given.getD c).maxShrinks.integer? = some limit) {v : Verbosity}
    (hv : c.verbosity.equal (.num (.level v)) = true) (source : Source) :
    let found := h.finding s query.name given source w
    (∀ r, found.result = .ok r →
        ∃ first chain, Story k query limit found.asked first chain r ∧
          found.reports = Story.heardAt v first chain r) ∧
      ∀ fault, found.result = .error fault →
        (∀ u ∈ found.asked, query.holds u ≠ .error fault) → found.reports = [] := by
  intro found
  have hc := hord.valid hforce
  have hpos : 0 ≤ limit := by
    obtain ⟨n, hn, hle⟩ := valid_getD hc hgiven .maxShrinks
    cases hlimit.symm.trans hn
    exact hle
  obtain ⟨hresult, hasked, -⟩ := finding_eq_run hpure hord (settingsFor_eq hforce given) s source
  have hreports := reports_finding hpure hord hsteady hforce hc given s source
  obtain ⟨htold, hsilent⟩ := Search.run_tells query hk hs (Search.budget_eq hlimit) hpos source
  rw [hresult, hasked, hreports, Account.reports]
  refine ⟨fun r hr => ?_, fun fault hr hraised => ?_⟩
  · obtain ⟨first, chain, hstory, hmessages⟩ := htold r hr
    exact ⟨first, chain, hstory, by rw [hmessages, Story.heard_messages hv]⟩
  · rcases hsilent fault hr with hnone | ⟨u, hu, hfault⟩
    · rw [hnone]
      rfl
    · exact absurd hfault (hraised u hu)

/-- Searches with the same condition and the same budgets come to the same, whatever the verbosity
in force and whoever listens. -/
private theorem finding_alike [Memory] (hpure : h.Pure query) (hord : h.Orderly)
    (hforce : (h.session w).inForce.value = .settings c) {ω' : Type} {h' : Host ω'} {w' : ω'}
    {c' : Settings} (hpure' : h'.Pure query) (hord' : h'.Orderly)
    (hforce' : (h'.session w').inForce.value = .settings c') {given given' : Option Settings}
    (hexamples : (given'.getD c').maxExamples = (given.getD c).maxExamples)
    (hshrinks : (given'.getD c').maxShrinks = (given.getD c).maxShrinks) (s : Strategy)
    (source : Source) :
    let found := h.finding s query.name given source w
    let other := h'.finding s query.name given' source w'
    other.result = found.result ∧ other.asked = found.asked ∧ other.source = found.source := by
  intro found other
  obtain ⟨hresult, hasked, hsource⟩ :=
    finding_eq_run hpure hord (settingsFor_eq hforce given) s source
  obtain ⟨hresult', hasked', hsource'⟩ :=
    finding_eq_run hpure' hord' (settingsFor_eq hforce' given') s source
  have hrun : Search.run s query (given'.getD c') source =
      Search.run s query (given.getD c) source := by
    rw [Search.run, Search.run, hexamples, hshrinks]
  rw [hrun] at hresult' hasked' hsource'
  exact ⟨hresult'.trans hresult.symm, hasked'.trans hasked.symm, hsource'.trans hsource.symm⟩

/-- In a program where nobody changes what is in force, a search that returns is heard at the level
in force. One that does not is not heard at all, unless it is the condition that failed. Of what the
search returns, of what it asks and of what it draws, nothing depends on the verbosity or the
reporter: any other program with the same condition and the same budgets comes to the same. -/
theorem finding_tells [Memory] (hk : k.IsStandard) (hs : s.MadeOver k) (hpure : h.Pure query)
    (hord : h.Orderly) (hforce : (h.session w).inForce.value = .settings c)
    (given : Option Settings) (hgiven : ∀ g ∈ given, g.Valid) {limit : Int}
    (hlimit : (given.getD c).maxShrinks.integer? = some limit) (source : Source) :
    let found := h.finding s query.name given source w
    (∀ v : Verbosity, h.Steady → c.verbosity.equal (.num (.level v)) = true →
      (∀ r, found.result = .ok r →
        ∃ first chain, Story k query limit found.asked first chain r ∧
          found.reports = Story.heardAt v first chain r) ∧
      ∀ fault, found.result = .error fault →
        (∀ u ∈ found.asked, query.holds u ≠ .error fault) → found.reports = []) ∧
      ∀ (ω' : Type) (h' : Host ω') (w' : ω') (c' : Settings) (given' : Option Settings),
        h'.Pure query → h'.Orderly → (h'.session w').inForce.value = .settings c' →
        (given'.getD c').maxExamples = (given.getD c).maxExamples →
        (given'.getD c').maxShrinks = (given.getD c).maxShrinks →
        let other := h'.finding s query.name given' source w'
        other.result = found.result ∧ other.asked = found.asked ∧
          other.source = found.source := by
  constructor
  · intro v hsteady hv
    exact finding_heard hk (hs.wellFormed hk) hpure hord hsteady hforce hgiven hlimit hv source
  · intro ω' h' w' c' given' hpure' hord' hforce' hexamples hshrinks
    exact finding_alike hpure hord hforce hpure' hord' hforce' hexamples hshrinks s source

attribute [local instance] Memory.small

/-- A search for a byte with its second bit set, heard at the highest level and at the usual one.
The first byte drawn has two more bits, one below that one and one above it. -/
theorem finding_tells_byte :
    let s : Strategy := .range (.word .u8) (.plain 0) (.plain 3) none
    let query : Query := ⟨"second", fun v => .ok ((Kind.word .u8).has v 1)⟩
    let found := (counting query).finding s query.name none (.tape [1, 1, 1]) (.debug, 0)
    let other := (counting query).finding s query.name none (.tape [1, 1, 1]) (.normal, 0)
    Strategy.ofBounds (.kind (.word .u8)) (.int 0) (.int 3) .absent = .ok s ∧
      found.result = .ok (.int 2) ∧ other.result = .ok (.int 2) ∧ other.reports = [] ∧
        ∃ first chain, Story (.word .u8) query 500 found.asked first chain (.int 2) ∧
          found.reports = Story.heardAt .debug first chain (.int 2) := by
  intro s query found other
  have hk : (Kind.word .u8).IsStandard := trivial
  have hmade : Strategy.ofBounds (.kind (.word .u8)) (.int 0) (.int 3) .absent = .ok s := rfl
  have hs : s.MadeOver (.word .u8) := .ofBounds hmade
  have hlimit : (Settings.atLevel .debug).maxShrinks.integer? = some 500 := rfl
  have hlevel : (Settings.atLevel .debug).verbosity.equal (.num (.level .debug)) = true := rfl
  have hfind : ∀ v, (counting query).finding s query.name none (.tape [1, 1, 1]) (v, 0) =
      FlagSets.find (.strategy s) query (Settings.atLevel v) none (.source (.tape [1, 1, 1])) :=
    fun v => finding_eq_find (pure_counting query) (orderly_counting query) (steady_counting query)
      rfl (Settings.valid_atLevel v) none s (.tape [1, 1, 1])
  have hresult : found.result = .ok (.int 2) := by
    refine (congrArg Finding.result (hfind .debug)).trans ?_
    exact (find_eq_search hk (hs.wellFormed hk) query _ none rfl).1.trans rfl
  have hreports : other.reports = [] := by
    rw [show other = _ from hfind .normal]
    decide +kernel
  obtain ⟨htells, hother⟩ := finding_tells (h := counting query) (w := (.debug, 0))
    (c := Settings.atLevel .debug) hk hs (pure_counting query) (orderly_counting query) rfl none
    nofun hlimit (.tape [1, 1, 1])
  obtain ⟨hreturns, -⟩ := htells .debug (steady_counting query) hlevel
  obtain ⟨hsame, -, -⟩ := hother _ (counting query) (.normal, 0) (Settings.atLevel .normal) none
    (pure_counting query) (orderly_counting query) rfl rfl rfl
  exact ⟨hmade, hresult, hsame.trans hresult, hreports, hreturns (.int 2) hresult⟩

end Host

end FlagSets
