/-!
# Readers of a byte stream

A reader keeps a state and a buffer. Its loop body, `turn`, either goes round
again, gives a frame, or waits for more input. `call` is one call of such a
loop (`Decoder::decode`): rounds until a frame is given or input is missing.
`drain` is the caller's loop around it: calls until one gives nothing.

`Reads` says the same without fuel. What a caller may want to know follows from
one fact about single rounds, `Round`: a round that does not wait takes
something from the buffer, on a longer buffer it does the same, and a round that
waits can be taken up where it stopped. So the loops end (`drain_reads`), and
reading a stream in pieces is reading it at once (`feedAll_eq`).
-/

/-- What one round of a reader's loop does. -/
inductive Turn (σ α φ : Type) where
  | again (s : σ) (buf : List α)
  | give (f : φ) (s : σ) (buf : List α)
  | wait (s : σ) (buf : List α)

namespace Reader

variable {σ α φ : Type}

section Loops

variable (turn : σ → List α → Turn σ α φ)

/-- Rounds until a frame or a wait, at most `fuel` of them. -/
def call : Nat → σ → List α → Option φ × σ × List α
  | 0, s, buf => (none, s, buf)
  | n + 1, s, buf =>
    match turn s buf with
    | .again s buf => call n s buf
    | .give f s buf => (some f, s, buf)
    | .wait s buf => (none, s, buf)

/-- Calls until one gives nothing, at most `fuel` of them. -/
def drain : Nat → σ → List α → List φ × σ × List α
  | 0, s, buf => ([], s, buf)
  | n + 1, s, buf =>
    match call turn (buf.length + 1) s buf with
    | (none, s, buf) => ([], s, buf)
    | (some f, s, buf) =>
      let (fs, s, buf) := drain n s buf
      (f :: fs, s, buf)

/-- A chunk arrives: it is appended to the buffer, which is then drained. The
frames follow those given before. -/
def feed (r : List φ × σ × List α) (chunk : List α) : List φ × σ × List α :=
  let buf := r.2.2 ++ chunk
  let (fs, s, buf) := drain turn (buf.length + 1) r.2.1 buf
  (r.1 ++ fs, s, buf)

/-- Chunks arrive one after another. -/
def feedAll (s : σ) (chunks : List (List α)) : List φ × σ × List α :=
  chunks.foldl (feed turn) ([], s, [])

/-- From `s` and `buf` the reader gives `fs`, then waits in `s'` with `buf'`. -/
inductive Reads : σ → List α → List φ → σ → List α → Prop where
  | wait {s s' : σ} {buf buf' : List α} : turn s buf = .wait s' buf' → Reads s buf [] s' buf'
  | again {s s' t : σ} {buf buf' rest : List α} {fs : List φ} :
      turn s buf = .again s' buf' → Reads s' buf' fs t rest → Reads s buf fs t rest
  | give {s s' t : σ} {buf buf' rest : List α} {f : φ} {fs : List φ} :
      turn s buf = .give f s' buf' → Reads s' buf' fs t rest → Reads s buf (f :: fs) t rest

/-- What a round may do with a buffer, and how it then goes on with a longer one. -/
inductive Round (s : σ) (buf : List α) : Prop where
  | idle : turn s buf = .wait s buf → Round s buf
  /-- Everything there was has been taken, and more is needed. -/
  | part (s' : σ) : turn s buf = .wait s' [] → (∀ x, turn s (buf ++ x) = turn s' x) → Round s buf
  | again (s' : σ) (n : Nat) : 0 < n → n ≤ buf.length →
      (∀ x, turn s (buf ++ x) = .again s' (buf.drop n ++ x)) → Round s buf
  | give (f : φ) (s' : σ) (n : Nat) : 0 < n → n ≤ buf.length →
      (∀ x, turn s (buf ++ x) = .give f s' (buf.drop n ++ x)) → Round s buf

end Loops

variable {turn : σ → List α → Turn σ α φ} {s s' t : σ} {buf buf' rest rest' x : List α}
  {f : φ} {fs gs : List φ}

/-! ## Reading is a function -/

theorem Reads.det (h : Reads turn s buf fs s' rest) (h' : Reads turn s buf gs t rest') :
    gs = fs ∧ t = s' ∧ rest' = rest := by
  induction h generalizing gs t rest' with
  | wait hw =>
    cases h' with
    | wait hw' => rw [hw] at hw'; cases hw'; exact ⟨rfl, rfl, rfl⟩
    | again ha _ => rw [hw] at ha; cases ha
    | give hg _ => rw [hw] at hg; cases hg
  | again ha _ ih =>
    cases h' with
    | wait hw => rw [ha] at hw; cases hw
    | again ha' h' => rw [ha] at ha'; cases ha'; exact ih h'
    | give hg _ => rw [ha] at hg; cases hg
  | give hg _ ih =>
    cases h' with
    | wait hw => rw [hg] at hw; cases hw
    | again ha _ => rw [hg] at ha; cases ha
    | give hg' h' =>
      rw [hg] at hg'
      cases hg'
      obtain ⟨rfl, rfl, rfl⟩ := ih h'
      exact ⟨rfl, rfl, rfl⟩

/-! ## Rounds on a longer buffer -/

theorem Round.eats_again (hr : Round turn s buf) (h : turn s buf = .again s' buf') :
    buf'.length < buf.length ∧ ∀ x, turn s (buf ++ x) = .again s' (buf' ++ x) := by
  cases hr with
  | idle hw | part _ hw => rw [hw] at h; cases h
  | again t n hpos hn hx =>
    have h₀ := hx []
    rw [List.append_nil, List.append_nil, h] at h₀
    cases h₀
    exact ⟨by rw [List.length_drop]; omega, hx⟩
  | give f t n _ _ hx =>
    have h₀ := hx []
    rw [List.append_nil, h] at h₀
    cases h₀

theorem Round.eats_give (hr : Round turn s buf) (h : turn s buf = .give f s' buf') :
    buf'.length < buf.length ∧ ∀ x, turn s (buf ++ x) = .give f s' (buf' ++ x) := by
  cases hr with
  | idle hw | part _ hw => rw [hw] at h; cases h
  | again t n _ _ hx =>
    have h₀ := hx []
    rw [List.append_nil, h] at h₀
    cases h₀
  | give f t n hpos hn hx =>
    have h₀ := hx []
    rw [List.append_nil, List.append_nil, h] at h₀
    cases h₀
    exact ⟨by rw [List.length_drop]; omega, hx⟩

theorem Round.resumes (hr : Round turn s buf) (h : turn s buf = .wait s' buf') (x : List α) :
    turn s (buf ++ x) = turn s' (buf' ++ x) := by
  cases hr with
  | idle hw => rw [hw] at h; cases h; rfl
  | part t hw hx => rw [hw] at h; cases h; exact hx x
  | again t n _ _ hx =>
    have h₀ := hx []
    rw [List.append_nil, h] at h₀
    cases h₀
  | give f t n _ _ hx =>
    have h₀ := hx []
    rw [List.append_nil, h] at h₀
    cases h₀

section Rounds

variable (hr : ∀ s buf, Round turn s buf)

include hr

/-! ## The loops read -/

/-- One call: it waits, or gives a frame from a shorter buffer and leaves the
rest to be read. -/
theorem call_reads : ∀ (n : Nat) (s : σ) (buf : List α), buf.length < n →
    (∃ s' buf', call turn n s buf = (none, s', buf') ∧ Reads turn s buf [] s' buf') ∨
    (∃ f s' buf', call turn n s buf = (some f, s', buf') ∧ buf'.length < buf.length ∧
      ∀ {fs t rest}, Reads turn s' buf' fs t rest → Reads turn s buf (f :: fs) t rest) := by
  intro n
  induction n with
  | zero => intro s buf h; omega
  | succ n ih =>
    intro s buf hn
    cases hturn : turn s buf with
    | wait s' buf' => exact .inl ⟨s', buf', by rw [call, hturn], .wait hturn⟩
    | give f s' buf' =>
      exact .inr ⟨f, s', buf', by rw [call, hturn], ((hr s buf).eats_give hturn).1, .give hturn⟩
    | again s' buf' =>
      have hlt := ((hr s buf).eats_again hturn).1
      rw [call, hturn]
      obtain ⟨t, r, hc, hreads⟩ | ⟨f, t, r, hc, hlen, hreads⟩ := ih s' buf' (by omega)
      · exact .inl ⟨t, r, hc, .again hturn hreads⟩
      · exact .inr ⟨f, t, r, hc, by omega, fun h => .again hturn (hreads h)⟩

/-- With fuel above the buffer's length the loop of calls reads it. -/
theorem drain_reads : ∀ (n : Nat) (s : σ) (buf : List α), buf.length < n →
    Reads turn s buf (drain turn n s buf).1 (drain turn n s buf).2.1 (drain turn n s buf).2.2 := by
  intro n
  induction n with
  | zero => intro s buf h; omega
  | succ n ih =>
    intro s buf hn
    rw [drain]
    obtain ⟨t, r, hc, hreads⟩ | ⟨f, t, r, hc, hlen, hreads⟩ :=
      call_reads hr (buf.length + 1) s buf (Nat.lt_succ_self _)
    · rw [hc]; exact hreads
    · rw [hc]; exact hreads (ih t r (by omega))

theorem drain_eq (h : Reads turn s buf fs t rest) :
    drain turn (buf.length + 1) s buf = (fs, t, rest) := by
  obtain ⟨h₁, h₂, h₃⟩ := h.det (drain_reads hr (buf.length + 1) s buf (Nat.lt_succ_self _))
  exact Prod.ext h₁ (Prod.ext h₂ h₃)

/-! ## Reading in pieces -/

/-- Reading a buffer, then its rest with what arrived, is reading the two at once. -/
theorem Reads.append (h : Reads turn s buf fs s' rest)
    (h' : Reads turn s' (rest ++ x) gs t rest') : Reads turn s (buf ++ x) (fs ++ gs) t rest' := by
  induction h with
  | wait hw =>
    have hw' := (hr _ _).resumes hw x
    cases h' with
    | wait h => exact .wait (hw'.trans h)
    | again h h' => exact .again (hw'.trans h) h'
    | give h h' => exact .give (hw'.trans h) h'
  | again ha _ ih => exact .again (((hr _ _).eats_again ha).2 x) (ih h')
  | give hg _ ih => exact .give (((hr _ _).eats_give hg).2 x) (ih h')

theorem feed_append (r : List φ × σ × List α) (x y : List α) :
    feed turn (feed turn r x) y = feed turn r (x ++ y) := by
  obtain ⟨fs, s, buf⟩ := r
  have h₁ := drain_reads hr ((buf ++ x).length + 1) s (buf ++ x) (Nat.lt_succ_self _)
  have h₂ := drain_reads hr _ (drain turn ((buf ++ x).length + 1) s (buf ++ x)).2.1
    ((drain turn ((buf ++ x).length + 1) s (buf ++ x)).2.2 ++ y) (Nat.lt_succ_self _)
  have h := drain_eq hr (h₁.append hr h₂)
  simp only [feed]
  rw [← List.append_assoc, h, List.append_assoc]

/-- **Reading a stream in pieces is reading it at once.** -/
theorem feedAll_eq (hs : turn s [] = .wait s []) (chunks : List (List α)) :
    feedAll turn s chunks = feed turn ([], s, []) chunks.flatten := by
  -- A chunk more is a feed more, from whatever was read before.
  have hfold : ∀ (cs : List (List α)) (r : List φ × σ × List α), feed turn r [] = r →
      cs.foldl (feed turn) r = feed turn r cs.flatten := by
    intro cs
    induction cs with
    | nil => intro r h; exact h.symm
    | cons c cs ih =>
      intro r _
      rw [List.foldl_cons, ih _ ((feed_append hr r c []).trans (by rw [List.append_nil])),
        feed_append hr, List.flatten_cons]
  refine hfold chunks _ ?_
  rw [feed, List.append_nil, drain_eq hr (.wait hs)]
  rfl

end Rounds

/-! ## A reader that keeps some frames to itself -/

/-- The round with the frames that fail `p` not given. -/
def Turn.mute {σ τ α φ : Type} (p : φ → Bool) (g : σ → τ) : Turn σ α φ → Turn τ α φ
  | .again s buf => .again (g s) buf
  | .give f s buf => if p f then .give f (g s) buf else .again (g s) buf
  | .wait s buf => .wait (g s) buf

/-- If the rounds of one reader are the muted rounds of another, it gives the
other's frames without the muted ones. -/
theorem Reads.mute {τ : Type} {turn' : τ → List α → Turn τ α φ} {p : φ → Bool} {g : σ → τ}
    (hm : ∀ s buf, turn' (g s) buf = Turn.mute p g (turn s buf))
    (h : Reads turn s buf fs s' rest) : Reads turn' (g s) buf (fs.filter p) (g s') rest := by
  induction h with
  | wait hw => exact .wait (by rw [hm, hw]; rfl)
  | again ha _ ih => exact .again (by rw [hm, ha]; rfl) ih
  | @give s _ _ buf _ _ f _ hg _ ih =>
    cases hp : p f with
    | true =>
      rw [List.filter_cons_of_pos hp]
      exact .give (by rw [hm, hg, Turn.mute, if_pos hp]) ih
    | false =>
      rw [List.filter_cons_of_neg (by rw [hp]; exact Bool.false_ne_true)]
      exact .again (by rw [hm, hg, Turn.mute, if_neg (by rw [hp]; exact Bool.false_ne_true)]) ih

end Reader
