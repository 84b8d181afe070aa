/- GID: Lyrion/Net/HeaderSync
   digest: The segment of the chain that answers a locator, and the receiver's check of it. -/

import Lyrion.Net
import Lyrion.Node.MedianTime

set_option autoImplicit false
set_option relaxedAutoImplicit false

namespace Lyrion.Net

open Library.ByteCodec Library.KeyValue Data Utils Tx Node

/-- The two maps are inverse up to the best height, and the stored headers carry the hashes of
their heights and point to the height below. -/
structure Linked (env : Env) (c : Chain) : Prop where
  inverse : ∀ height ≤ c.bestHeight, ∀ hash,
    c.state.heightToHash.lookup height = some hash ↔ c.state.hashToHeight.lookup hash = some height
  stored : ∀ height ≤ c.bestHeight, ∃ header hash, loadHeader c.db height = .ok header ∧
    headerHash env header = .ok hash ∧ c.state.heightToHash.lookup height = some hash
  links : ∀ height < c.bestHeight, ∀ header, loadHeader c.db (height + 1) = .ok header →
    c.state.heightToHash.lookup height = some header.prevHash

/-- The first of the best height, 2000 further, and the height above whose hash is the stop. -/
def segmentEnd (c : Chain) (k : Nat) (stop : Hash) : Nat :=
  let limit := min c.bestHeight (k + 2000)
  match c.state.hashToHeight.lookup stop with
  | some height => if k < height then min limit height else limit
  | none => limit

/-- Each header carries the hash of the one before, the first one the given hash. -/
def Continuous (env : Env) : Hash → List BlockHeader → Prop
  | _, [] => True
  | prevHash, header :: rest =>
      header.prevHash = prevHash ∧
        ∃ hash, headerHash env header = .ok hash ∧ Continuous env hash rest

section Segment

variable {env : Env} {c : Chain} {k height : Nat} {stop : Hash}

private theorem segmentEnd_le_limit : segmentEnd c k stop ≤ min c.bestHeight (k + 2000) := by
  unfold segmentEnd
  split
  · split
    · exact min_le_left _ _
    · exact le_refl _
  · exact le_refl _

private theorem segmentEnd_le_stop (found : c.state.hashToHeight.lookup stop = some height)
    (above : k < height) : segmentEnd c k stop ≤ height := by
  simp only [segmentEnd, found, if_pos above]
  exact min_le_right _ _

private theorem le_segmentEnd (best : height ≤ c.bestHeight) (room : height ≤ k + 2000)
    (passed : ∀ h, k < h → h < height → c.state.hashToHeight.lookup stop ≠ some h) :
    height ≤ segmentEnd c k stop := by
  simp only [segmentEnd]
  split
  · rename_i found
    split
    · rename_i h above
      have later : height ≤ h := by
        by_contra before
        exact passed h above (by omega) found
      omega
    · omega
  · omega

private theorem headersFrom_step {db : Db} {count : Nat} {headers : List BlockHeader}
    {header : BlockHeader} {hash : Hash} (room : ¬ headers.length ≥ 2000)
    (loaded : loadHeader db height = .ok header) (hashed : headerHash env header = .ok hash) :
    headersFrom env db stop (count + 1) height headers =
      if hash = stop then .ok (headers ++ [header])
      else headersFrom env db stop count (height + 1) (headers ++ [header]) := by
  rw [headersFrom, if_neg room, loaded]
  change (headerHash env header >>= _) = _
  rw [hashed]
  rfl

private theorem loaded_past_end (past : segmentEnd c k stop < height) :
    (List.range' height (segmentEnd c k stop + 1 - height)).mapM (loadHeader c.db) = .ok [] := by
  have done : segmentEnd c k stop + 1 - height = 0 := by omega
  rw [done]
  rfl

private theorem not_stopped_succ {hash : Hash} (linked : Linked env c)
    (inside : height ≤ c.bestHeight) (filed : c.state.heightToHash.lookup height = some hash)
    (passes : hash ≠ stop)
    (passed : ∀ h, k < h → h < height → c.state.hashToHeight.lookup stop ≠ some h) :
    ∀ h, k < h → h < height + 1 → c.state.hashToHeight.lookup stop ≠ some h := by
  intro h above below found
  by_cases before : h < height
  · exact passed h above before found
  · have same : h = height := by omega
    rw [same, ← linked.inverse height inside, filed] at found
    exact passes (Option.some.inj found)

variable (k stop) in
private theorem headersFrom_segment (linked : Linked env c) (count : Nat)
    (headers : List BlockHeader) (reached : height = k + 1 + headers.length)
    (left : height + count = c.bestHeight + 1) (room : headers.length ≤ 2000)
    (passed : ∀ h, k < h → h < height → c.state.hashToHeight.lookup stop ≠ some h) :
    ∃ rest, headersFrom env c.db stop count height headers = .ok (headers ++ rest) ∧
      (List.range' height (segmentEnd c k stop + 1 - height)).mapM (loadHeader c.db) =
        .ok rest := by
  have limit : segmentEnd c k stop ≤ min c.bestHeight (k + 2000) := segmentEnd_le_limit
  induction count generalizing height headers with
  | zero => exact ⟨[], by simp [headersFrom], loaded_past_end (by omega)⟩
  | succ count ih =>
      by_cases full : headers.length ≥ 2000
      · exact ⟨[], by simp [headersFrom, full], loaded_past_end (by omega)⟩
      · have inside : height ≤ c.bestHeight := by omega
        obtain ⟨header, hash, loaded, hashed, filed⟩ := linked.stored height inside
        have number := (linked.inverse height inside hash).mp filed
        have reaches : height ≤ segmentEnd c k stop := le_segmentEnd inside (by omega) passed
        have ahead : segmentEnd c k stop + 1 - height =
            segmentEnd c k stop + 1 - (height + 1) + 1 := by omega
        rw [ahead, List.range'_succ, List.mapM_cons, loaded]
        by_cases stops : hash = stop
        · subst stops
          have last : segmentEnd c k hash ≤ height := segmentEnd_le_stop number (by omega)
          refine ⟨[header], ?_, ?_⟩
          · rw [headersFrom_step full loaded hashed, if_pos rfl]
          · rw [loaded_past_end (Nat.lt_succ_of_le last)]
            rfl
        · have later := not_stopped_succ linked inside filed stops passed
          obtain ⟨rest, ran, tail⟩ := ih (headers ++ [header]) (by simp; omega) (by omega)
            (by simp; omega) later
          refine ⟨header :: rest, ?_, ?_⟩
          · rw [headersFrom_step full loaded hashed, if_neg stops, ran, List.append_assoc,
              List.singleton_append]
          · rw [tail]
            rfl

private theorem continuous_of_loaded (linked : Linked env c) (count : Nat)
    {headers : List BlockHeader} {below : Hash}
    (filed : c.state.heightToHash.lookup height = some below)
    (inside : height + count ≤ c.bestHeight)
    (loaded : (List.range' (height + 1) count).mapM (loadHeader c.db) = .ok headers) :
    Continuous env below headers := by
  induction count generalizing height headers below with
  | zero =>
      obtain rfl := Except.ok.inj loaded
      trivial
  | succ count ih =>
      rw [List.range'_succ, List.mapM_cons] at loaded
      simp only [bind_eq_ok, pure_eq_ok] at loaded
      obtain ⟨header, first, rest, later, rfl⟩ := loaded
      have link := linked.links height (by omega) header first
      obtain ⟨header', hash, again, hashed, above⟩ := linked.stored (height + 1) (by omega)
      obtain rfl := Except.ok.inj (again.symm.trans first)
      refine ⟨Option.some.inj (link.symm.trans filed), hash, hashed, ?_⟩
      exact ih above (by omega) later

end Segment

private theorem addHeaders_of_continuous (around : Surroundings) {headers : List BlockHeader}
    {prevHash : Hash} (continuous : Continuous around.env prevHash headers) (s : PeerManager) :
    ∃ result s', addHeaders around headers prevHash s = some (result, s') ∧
      (result = .ok () ∨ Raises Fault.isCrash result) := by
  induction headers generalizing prevHash s with
  | nil => exact ⟨.ok (), s, rfl, Or.inl rfl⟩
  | cons header rest ih =>
      obtain ⟨link, hash, hashed, later⟩ := continuous
      simp only [addHeaders_cons, hashed, ne_eq, link, not_true_eq_false, if_false]
      split
      · rename_i fault crashed
        exact ⟨_, _, rfl, Or.inr ⟨fault, (ignoreError_eq_error.mp crashed).2, rfl⟩⟩
      · exact ih later _

/-- `get_headers` answers the locator at height `k` with the headers of the heights above it, in
order, up to the end of the segment. They follow the locator, and the handler of the other side
goes through all of them. -/
theorem getHeaders_segment (env : Env) (c : Chain) (linked : Linked env c) (k : Nat)
    (inside : k ≤ c.bestHeight) (locator stop : Hash)
    (filed : c.state.heightToHash.lookup k = some locator) :
    ∃ headers, getHeaders env c locator stop = .ok headers ∧
      (List.range' (k + 1) (segmentEnd c k stop - k)).mapM (loadHeader c.db) = .ok headers ∧
      (∀ first ∈ headers.head?, first.prevHash = locator) ∧
      ∀ around : Surroundings, around.env = env → ∀ choices peer s,
        ∃ result s', serve around choices peer s (.headers headers) = some (result, s') ∧
          (result = .ok () ∨ Raises Fault.isCrash result) := by
  have number := (linked.inverse k inside locator).mp filed
  have limit : segmentEnd c k stop ≤ min c.bestHeight (k + 2000) := segmentEnd_le_limit
  have reaches : k ≤ segmentEnd c k stop := le_segmentEnd inside (by omega) (by omega)
  obtain ⟨headers, ran, loaded⟩ := headersFrom_segment k stop linked (c.bestHeight - k) [] rfl
    (by simp; omega) (by simp) (by simp; omega)
  simp only [List.length_nil, Nat.add_zero, Nat.add_sub_add_right] at loaded
  have continuous : Continuous env locator headers :=
    continuous_of_loaded linked (segmentEnd c k stop - k) filed (by omega) loaded
  have followed : ∀ first ∈ headers.head?, first.prevHash = locator := by
    intro first member
    cases headers with
    | nil => exact absurd member (by simp)
    | cons header rest =>
        obtain rfl := Option.some.inj member
        exact continuous.1
  refine ⟨headers, ?_, loaded, followed, ?_⟩
  · rw [getHeaders, number]
    exact ran
  · rintro around rfl choices peer s
    cases headers with
    | nil => exact ⟨_, s, rfl, Or.inl rfl⟩
    | cons header rest =>
        have accepted := addHeaders_of_continuous around continuous s
        rw [← followed header rfl] at accepted
        exact accepted

def sampleTrail : Nat → Block
  | 0 => sampleBlock []
  | height + 1 => sampleChild (sampleHash (sampleTrail height)) 10000000000 1

def sampleSynced : Chain :=
  { sampleFork false with
    db := chainDb sampleTrail 4
    bestHeight := 3
    bestTip := sampleHash (sampleTrail 3)
    state := { (sampleFork false).state with
      heightToHash := (List.range 4).foldl (fun m i => m.insert i (sampleHash (sampleTrail i))) ∅
      hashToHeight :=
        (List.range 4).foldl (fun m i => m.insert (sampleHash (sampleTrail i)) i) ∅ } }

private theorem sampleSynced_linked : Linked sampleEnv sampleSynced where
  inverse := by
    have known : ∀ i < 4, ∀ height ≤ 3,
        sampleSynced.state.heightToHash.lookup height = some (sampleHash (sampleTrail i)) ↔
          sampleSynced.state.hashToHeight.lookup (sampleHash (sampleTrail i)) = some height := by
      decide +kernel
    have filed : ∀ height ≤ 3, sampleSynced.state.heightToHash.lookup height =
        some (sampleHash (sampleTrail height)) := by decide +kernel
    intro height bound hash
    by_cases listed : ∃ i < 4, hash = sampleHash (sampleTrail i)
    · obtain ⟨i, below, rfl⟩ := listed
      exact known i below height bound
    · have other (i : Nat) (below : i < 4) : hash ≠ sampleHash (sampleTrail i) :=
        fun same => listed ⟨i, below, same⟩
      refine iff_of_false (fun found => ?_) fun found => ?_
      · have same := Option.some.inj ((filed height bound).symm.trans found)
        exact other height (Nat.lt_succ_of_le bound) same.symm
      · simp [sampleSynced, List.range_succ, Finmap.lookup_insert_of_ne, other] at found
  stored := by
    intro height bound
    refine ⟨(sampleTrail height).header, sampleHash (sampleTrail height), ?_, ?_⟩
    · exact loadHeader_of_stored (get_chainDb sampleTrail (by decide) (Nat.lt_succ_of_le bound)).2.2
    · revert height
      decide +kernel
  links := by
    intro height bound header loaded
    have stored : loadHeader sampleSynced.db (height + 1) = .ok (sampleTrail (height + 1)).header :=
      loadHeader_of_stored (get_chainDb sampleTrail (by decide) (Nat.succ_lt_succ bound)).2.2
    obtain rfl := Except.ok.inj (stored.symm.trans loaded)
    revert height
    decide +kernel

theorem synced_headers_served :
    ∃ headers, getHeaders sampleEnv sampleSynced (sampleHash (sampleTrail 0))
        (sampleHash (sampleTrail 2)) = .ok headers ∧
      [1, 2].mapM (loadHeader sampleSynced.db) = .ok headers := by
  obtain ⟨headers, served, loaded, -⟩ := getHeaders_segment sampleEnv sampleSynced
    sampleSynced_linked 0 (by decide) (sampleHash (sampleTrail 0)) (sampleHash (sampleTrail 2))
    (by decide +kernel)
  have heights : List.range' (0 + 1)
      (segmentEnd sampleSynced 0 (sampleHash (sampleTrail 2)) - 0) = [1, 2] := by
    decide +kernel
  rw [heights] at loaded
  exact ⟨headers, served, loaded⟩

end Lyrion.Net
