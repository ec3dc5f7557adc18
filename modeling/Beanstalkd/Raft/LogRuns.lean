import Beanstalkd.Lib.Loop
import Beanstalkd.Raft.LogOpen

/-!
# The segmented log in use

Every call keeps `Repr`, so whatever openraft does with the store, its answers are
those of the abstract log.
-/

namespace Beanstalkd.Raft

open File Numbered LogStore

variable {P : Type} {w : Wire P} {o : LogOptions}

/-! ## Whole runs -/

theorem Repr.exec {s : LogStore P} {a : AbstractLog P} (h : Repr w o s a) {op : LogOp P}
    (hop : a.Issued w op) : ∃ s', s.exec w op = .ok s' ∧ Repr w (op.options o) s' (a.apply op) := by
  cases op with
  | append es =>
    obtain ⟨hes, hbound, hshort, hbytes⟩ := hop
    exact h.append hes hbound hshort hbytes
  | truncate since => exact h.truncate hop
  | purge upto => exact h.purge hop.1 hop.2
  | reopen opts => exact h.reopen opts

theorem Repr.fresh (w : Wire P) (opts : LogOptions) :
    ∃ s, openDir w opts { segs := [], purged := none } = .ok s ∧ Repr w opts s {} := by
  refine ⟨{ opts, segs := [], tail := .new opts, purged := none, lastEntry := none,
            purgedFile := none }, ?_, rfl, rfl, rfl, ?_, rfl, ⟨0, [], rfl, rfl⟩,
    List.forall_mem_nil _, List.nil_suffix, ?_, ?_⟩
  · rw [openDir, List.mergeSort_nil]
    rfl
  · intro id hid
    cases hid
  · exact Nat.two_pow_pos 64
  · exact Nat.zero_le _

theorem LogRun.run_repr (w : Wire P) (opts : LogOptions) (ops : List (LogOp P)) :
    ∃ s, (run w opts ops).store = .ok s ∧ Repr w (run w opts ops).opts s (run w opts ops).log := by
  have hstep : ∀ c, ∀ op ∈ ops, (∃ s, c.store = .ok s ∧ Repr w c.opts s c.log) →
      ∃ s, (step w c op).store = .ok s ∧ Repr w (step w c op).opts s (step w c op).log := by
    intro c op _ hc
    obtain ⟨s, hs, hrepr⟩ := hc
    rw [step]
    split
    next hop =>
      obtain ⟨s', hs', hrepr'⟩ := hrepr.exec hop
      exact ⟨s', by rw [hs]; exact hs', hrepr'⟩
    next => exact ⟨s, hs, hrepr⟩
  exact Loop.foldl_inv ops hstep (Repr.fresh w opts)

/-- Whatever openraft does with the store, every call succeeds, and the answers
are those of the abstract log. A limited read returns the entries that fit the
limit, and at least one: a function of the entries alone, wherever they are read
from. -/
theorem log_store_refines (w : Wire P) (opts : LogOptions) (ops : List (LogOp P)) :
    ∃ s, (LogRun.run w opts ops).store = .ok s ∧
      s.logState = (LogRun.run w opts ops).log.state ∧
      (∀ lo hi, s.tryGet w lo hi = .ok ((LogRun.run w opts ops).log.range lo hi)) ∧
      (0 < (LogRun.run w opts ops).opts.maxReadBytes → ∀ start stop,
        ∃ got, s.limitedGet w start stop = .ok got ∧
          let max := (LogRun.run w opts ops).opts.maxReadBytes
          let asked := (LogRun.run w opts ops).log.range (.included start) (.excluded stop)
          got = fit w.recLen max 0 false asked ∧ got <+: asked ∧ (asked ≠ [] → got ≠ []) ∧
          (total w.recLen got ≤ max ∨ got.length = 1)) := by
  obtain ⟨s, hs, h⟩ := LogRun.run_repr w opts ops
  refine ⟨s, hs, h.logState, h.tryGet,
    fun hmax start stop => ⟨_, ?_, rfl, fit_isPrefix _, fit_ne_nil, fit_total⟩⟩
  rw [← h.opts] at hmax ⊢
  exact h.getBetween start stop hmax

/-! A serializer to run the store with: a number is that many ones and a zero. -/

def unary (n : Nat) : Bytes := List.replicate n 1 ++ [0]

def readUnary (b : Bytes) : Nat × Bytes :=
  ((b.takeWhile (· = 1)).length, (b.dropWhile (· = 1)).drop 1)

theorem readUnary_unary (n : Nat) (rest : Bytes) : readUnary (unary n ++ rest) = (n, rest) := by
  induction n with
  | zero => rfl
  | succ n ih =>
    have hcons : unary (n + 1) ++ rest = 1 :: (unary n ++ rest) := rfl
    obtain ⟨hn, hrest⟩ := Prod.mk.inj ih
    rw [hcons]
    simp only [readUnary, List.takeWhile_cons, List.dropWhile_cons, decide_true, if_true,
      List.length_cons, hn, hrest]

def unaryId (id : LogId) : Bytes := unary id.term ++ (unary id.node ++ (unary id.index ++ []))

def readUnaryId (b : Bytes) : LogId :=
  let (term, b) := readUnary b
  let (node, b) := readUnary b
  { term, node, index := (readUnary b).1 }

theorem readUnaryId_unaryId (id : LogId) : readUnaryId (unaryId id) = id := by
  simp only [readUnaryId, unaryId, readUnary_unary]

theorem unaryId_ne_nil (id : LogId) : unaryId id ≠ [] := by
  simp [unaryId, unary]

def unaryWire : Wire Unit where
  crc _ := 0
  ids :=
    { encode := unaryId, decode := fun b => .ok (readUnaryId b)
      decode_encode := fun id => congrArg Except.ok (readUnaryId_unaryId id)
      encode_ne_nil := unaryId_ne_nil }
  entries :=
    { encode := fun e => unaryId e.logId
      decode := fun b => .ok { logId := readUnaryId b, payload := () }
      decode_encode := fun e => congrArg (fun id => Except.ok (Ent.mk id ()))
        (readUnaryId_unaryId e.logId)
      encode_ne_nil := fun e => unaryId_ne_nil e.logId }

/-- One entry to a segment, nothing cached. -/
def tightOptions : LogOptions :=
  { segmentSize := 30, maxReadBytes := 20, tailCacheBytes := 0, tailCacheEntries := 0 }

/-- Three entries, of which the last is replaced, and a reopening. -/
def rewritten : List (LogOp Unit) :=
  [.append [⟨⟨1, 1, 0⟩, ()⟩, ⟨⟨1, 1, 1⟩, ()⟩, ⟨⟨1, 1, 2⟩, ()⟩], .truncate ⟨1, 1, 2⟩,
    .append [⟨⟨2, 2, 2⟩, ()⟩], .purge ⟨1, 1, 0⟩, .reopen tightOptions]

theorem rewritten_read :
    ∃ s, (LogRun.run unaryWire tightOptions rewritten).store = .ok s ∧
      s.tryGet unaryWire .unbounded .unbounded =
        .ok [⟨⟨1, 1, 1⟩, ()⟩, ⟨⟨2, 2, 2⟩, ()⟩] ∧
      0 < (LogRun.run unaryWire tightOptions rewritten).opts.maxReadBytes ∧
      s.limitedGet unaryWire 0 9 = .ok [⟨⟨1, 1, 1⟩, ()⟩] := by
  obtain ⟨s, hs, -, hall, hlimited⟩ := log_store_refines unaryWire tightOptions rewritten
  obtain ⟨got, hgot, hfit, -⟩ := hlimited (by decide) 0 9
  refine ⟨s, hs, (hall .unbounded .unbounded).trans ?_, by decide, hgot.trans ?_⟩
  · rfl
  · rw [hfit]
    rfl

end Beanstalkd.Raft
