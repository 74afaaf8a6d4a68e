import Pyflame.Heap

/-!
Memory that is mapped by pages, and the readers of bytes.

`PtracePeekBytes` and `PtracePeekString` are asked for bytes and read words,
counted from the address they are given. The last word may reach into a page
that is not mapped.
-/

namespace Pyflame

open Interaction

/-! ### Pages -/

/-- Two addresses of one page are both mapped or both not. -/
def Paged (m : Memory) : Prop :=
  ∀ a b : Word, a.toNat / 4096 = b.toNat / 4096 → (m a).isSome = (m b).isSome

theorem le_covering (n : ℕ) : n ≤ covering n := by
  unfold covering
  omega

/-- The words that cover bytes at an aligned address lie in the pages of these bytes. -/
theorem Paged.covering {m : Memory} (hm : Paged m) {addr : Word} (haligned : addr.toNat % 8 = 0)
    {n : ℕ} (h : (ByteMemory.bytes m addr n).isSome) :
    (ByteMemory.bytes m addr (covering n)).isSome := by
  rw [ByteMemory.bytes_isSome_iff] at h ⊢
  intro i hi
  -- The first byte of the word is one of those that are asked for.
  have hfirst : 8 * (i / 8) < n := by
    unfold Pyflame.covering at hi
    omega
  have hpage : (addr + BitVec.ofNat 64 i).toNat / 4096 =
      (addr + BitVec.ofNat 64 (8 * (i / 8))).toNat / 4096 := by
    rw [BitVec.toNat_add, BitVec.toNat_add, BitVec.toNat_ofNat, BitVec.toNat_ofNat]
    omega
  rw [hm _ _ hpage]
  exact h _ hfirst

section

variable {α β : Type} {m : Memory} {pid : Pid}

/-! ### What a reader returns, it has read -/

theorem Yields.bind_iff {p : Tracer α} {f : α → Tracer β} {b : β} :
    Yields m (p.bind f) b ↔ ∃ a, Yields m p a ∧ Yields m (f a) b := by
  constructor
  · intro h
    obtain ⟨a, s, hp, hf⟩ := run_bind_eq_ok (congrArg Prod.fst h)
    exact ⟨a, hp, Prod.ext hf rfl⟩
  · rintro ⟨a, hp, hf⟩
    exact hp.bind hf

theorem Yields.bind_iff_of {p : Tracer α} {f : α → Tracer β} {a : α} {b : β} (hp : Yields m p a) :
    Yields m (p.bind f) b ↔ Yields m (f a) b := by
  rw [Yields, run_bind_ok _ hp]
  rfl

theorem Yields.ret_iff {a b : α} : Yields m (.ret a) b ↔ a = b := by
  constructor
  · intro h
    exact Outcome.ok.inj (congrArg Prod.fst h)
  · rintro rfl
    exact .ret a

theorem yields_peek_iff {addr data : Word} :
    Yields m (ptracePeek pid addr) data ↔ peekWord m addr = some data := by
  constructor
  · intro h
    cases hpeek : peekWord m addr with
    | some data' =>
        have hyields : Yields m (ptracePeek pid addr) data' := yields_peek hpeek
        have heq := hyields.symm.trans h
        exact congrArg some (Outcome.ok.inj (congrArg Prod.fst heq))
    | none =>
        have himage : image m (.peekData pid addr) = .error (text "Input/output error") := by
          simp only [image, hpeek]
        change run _ (orThrow _ (image m (.peekData pid addr))) () = _ at h
        rw [himage] at h
        cases h
  · exact yields_peek

theorem yields_peekWords_iff {n : ℕ} {addr : Word} {bs : Bytes} :
    Yields m (peekWords pid addr n) bs ↔ ByteMemory.bytes m addr (8 * n) = some bs := by
  constructor
  · intro h
    induction n generalizing addr bs with
    | zero => exact congrArg some (Yields.ret_iff.mp h)
    | succ n ih =>
        obtain ⟨data, hdata, h⟩ := Yields.bind_iff.mp h
        obtain ⟨rest, hrest, h⟩ := Yields.bind_iff.mp h
        have hword := peekWord_eq_some_iff.mp (yields_peek_iff.mp hdata)
        have hrest' : ByteMemory.bytes m (addr + BitVec.ofNat 64 8) (8 * n) = some rest := ih hrest
        rw [show 8 * (n + 1) = 8 + 8 * n by omega, ByteMemory.bytes_add, hword, Option.bind_some,
          hrest', ← Yields.ret_iff.mp h]
        rfl
  · exact yields_peekWords

/-- Rounding up to whole words overflows for the sizes next to the end. -/
theorem roundUp_overflow {nbytes : Word} (h : 2 ^ 64 ≤ nbytes.toNat + 7) :
    (if nbytes.toNat % 8 ≠ 0 then (nbytes / 8 + 1) * 8 else nbytes).toNat / 8 = 0 := by
  have hlt := nbytes.isLt
  have h8 : (8 : Word).toNat = 8 := rfl
  have h1 : (1 : Word).toNat = 1 := rfl
  rw [if_pos (by omega), BitVec.toNat_mul, BitVec.toNat_add, BitVec.toNat_udiv, h8, h1]
  omega

/-- What `PtracePeekBytes` returns are the words that cover the bytes. -/
theorem yields_peekBytes_eq_iff {addr n : Word} {buf : Bytes} (hn : n.toNat + 7 < 2 ^ 64) :
    Yields m (ptracePeekBytes pid addr n) buf ↔
      ByteMemory.bytes m addr (covering n.toNat) = some buf := by
  have hwords : Yields m (peekWords pid addr ((n.toNat + 7) / 8)) buf ↔
      ByteMemory.bytes m addr (8 * ((n.toNat + 7) / 8)) = some buf := yields_peekWords_iff
  rw [← roundUp_div hn] at hwords
  rw [covering, ← roundUp_div hn]
  exact hwords

/-- `PtracePeekBytes` returns the bytes if the words that cover them can be read, and
their number can be rounded up. -/
theorem yields_peekBytes_iff {addr n : Word} {bs : Bytes}
    (h : ByteMemory.bytes m addr n.toNat = some bs) :
    (∃ buf, Yields m (ptracePeekBytes pid addr n) buf ∧ buf.take n.toNat = bs) ↔
      n.toNat + 7 < 2 ^ 64 ∧ (ByteMemory.bytes m addr (covering n.toNat)).isSome := by
  constructor
  · rintro ⟨buf, hbuf, htake⟩
    by_cases hn : n.toNat + 7 < 2 ^ 64
    · rw [(yields_peekBytes_eq_iff hn).mp hbuf]
      exact ⟨hn, rfl⟩
    · -- Nothing is read, but something was asked for.
      have hwords : Yields m (peekWords pid addr 0) buf := by
        rw [← roundUp_overflow (Nat.le_of_not_lt hn)]
        exact hbuf
      obtain rfl := Yields.ret_iff.mp hwords
      have hlen := ByteMemory.bytes_length h
      rw [← htake, List.take_nil, List.length_nil] at hlen
      omega
  · rintro ⟨hn, hcovering⟩
    obtain ⟨buf, hbuf⟩ := Option.isSome_iff_exists.mp hcovering
    refine ⟨buf, (yields_peekBytes_eq_iff hn).mpr hbuf, ?_⟩
    rw [← Nat.add_sub_cancel' (le_covering n.toNat)] at hbuf
    exact Option.some.inj ((ByteMemory.bytes_split hbuf).1.symm.trans h)

/-! ### Strings -/

/-- A string that was returned has been read with the word of its terminator. -/
theorem covered_of_yields {addr : Word} (k : ℕ) {off : Word} {dump s r : Bytes} {n : ℕ}
    (hs : 0 ∉ s) (hk : s.length / 8 = k)
    (h : ByteMemory.bytes m (addr + off) (s.length + 1) = some (s ++ [0]))
    (hy : Yields m (Prog.forever (peekStringStep pid addr) n (off, dump)) r) :
    (ByteMemory.bytes m (addr + off) (8 * (k + 1))).isSome := by
  induction k generalizing off dump s n with
  | zero =>
      cases n with
      | zero => cases hy
      | succ n =>
          obtain ⟨c, hc, -⟩ := Yields.bind_iff.mp hy
          obtain ⟨data, hdata, -⟩ := Yields.bind_iff.mp hc
          rw [peekWord_eq_some_iff.mp (yields_peek_iff.mp hdata)]
          rfl
  | succ k ih =>
      cases n with
      | zero => cases hy
      | succ n =>
          -- The first word is text, so the loop goes round.
          rw [show s.length + 1 = 8 + ((s.drop 8).length + 1) by rw [List.length_drop]; omega] at h
          obtain ⟨hfront, hback⟩ := ByteMemory.bytes_split h
          have hlen : 8 ≤ s.length := by omega
          rw [List.take_append_of_le_length hlen] at hfront
          rw [List.drop_append_of_le_length hlen, BitVec.add_assoc] at hback
          obtain ⟨c, hc, hrest⟩ := Yields.bind_iff.mp hy
          obtain ⟨data, hdata, hc⟩ := Yields.bind_iff.mp hc
          have hword : s.take 8 = wordBytes data :=
            Option.some.inj (hfront.symm.trans (peekWord_eq_some_iff.mp (yields_peek_iff.mp hdata)))
          have hnul : 0 ∉ wordBytes data := fun h0 => hs (List.mem_of_mem_take (hword ▸ h0))
          simp only [hnul, if_false] at hc
          obtain rfl := Yields.ret_iff.mp hc
          have hdrop := ih (fun h0 => hs (List.mem_of_mem_drop h0))
            (by rw [List.length_drop]; omega) hback hrest
          obtain ⟨more, hmore⟩ := Option.isSome_iff_exists.mp hdrop
          rw [← BitVec.add_assoc] at hmore
          rw [show 8 * (k + 1 + 1) = 8 + 8 * (k + 1) by omega, ByteMemory.bytes_add, hfront,
            Option.bind_some]
          have hmore' : ByteMemory.bytes m (addr + off + BitVec.ofNat 64 8) (8 * (k + 1)) = some more :=
            hmore
          rw [hmore']
          rfl

/-- `PtracePeekString` returns the text in front of a terminator if the word that holds
the terminator can be read. -/
theorem yields_peekString_iff {addr : Word} {s : Bytes} (hs : 0 ∉ s)
    (h : ByteMemory.bytes m addr (s.length + 1) = some (s ++ [0])) :
    (∃ enough, ∀ fuel ≥ enough, Yields m (ptracePeekString fuel pid addr) s) ↔
      (ByteMemory.bytes m addr (covering (s.length + 1))).isSome := by
  have hwords : covering (s.length + 1) = 8 * (s.length / 8 + 1) := by
    unfold covering
    omega
  rw [hwords]
  constructor
  · rintro ⟨enough, hy⟩
    rw [← BitVec.add_zero addr] at h ⊢
    exact covered_of_yields _ hs rfl h (hy enough (Nat.le_refl _))
  · intro hcovering
    obtain ⟨buf, hbuf⟩ := Option.isSome_iff_exists.mp hcovering
    have hlong : s.length + 1 ≤ 8 * (s.length / 8 + 1) := by omega
    -- The words begin with the text and its terminator, so it is there to be found.
    have htake := hbuf
    rw [← Nat.add_sub_cancel' hlong] at htake
    have hfront := Option.some.inj ((ByteMemory.bytes_split htake).1.symm.trans h)
    have hstring : CStringAt m addr s := by
      refine ⟨hs, buf.drop (s.length + 1), ?_⟩
      rw [hbuf]
      conv_lhs => rw [← List.take_append_drop (s.length + 1) buf, hfront]
      simp
    exact ⟨s.length / 8 + 1, fun fuel hfuel => yields_peekString hstring (Nat.lt_of_succ_le hfuel)⟩

end

/-- **What lies behind the bytes.** `PtracePeekBytes` and `PtracePeekString` return bytes
that are mapped exactly when the words that cover them, counted from the address, are
mapped too. -/
theorem peeks_iff (m : Memory) (pid : Pid) (addr : Word) :
    (∀ (n : Word) (bs : Bytes), ByteMemory.bytes m addr n.toNat = some bs →
      ((∃ buf, Yields m (ptracePeekBytes pid addr n) buf ∧ buf.take n.toNat = bs) ↔
        n.toNat + 7 < 2 ^ 64 ∧ (ByteMemory.bytes m addr (covering n.toNat)).isSome)) ∧
    ∀ s : Bytes, 0 ∉ s → ByteMemory.bytes m addr (s.length + 1) = some (s ++ [0]) →
      ((∃ enough, ∀ fuel ≥ enough, Yields m (ptracePeekString fuel pid addr) s) ↔
        (ByteMemory.bytes m addr (covering (s.length + 1))).isSome) :=
  ⟨fun _ _ h => yields_peekBytes_iff h, fun _ hs h => yields_peekString_iff hs h⟩

/-- One page of zeros, from `0x1000` on. -/
def onePage : Memory := fun addr => if addr.toNat / 4096 = 1 then some 0 else none

theorem onePage_paged : Paged onePage := by
  intro a b h
  simp only [onePage, h]

theorem peeks_iff_onePage :
    (∃ buf, Yields onePage (ptracePeekBytes 1 0x1004 12) buf ∧ buf.take 12 = List.replicate 12 0) ∧
      ∃ enough, ∀ fuel ≥ enough, Yields onePage (ptracePeekString fuel 1 0x1004) [] := by
  obtain ⟨hbytes, hstring⟩ := peeks_iff onePage 1 0x1004
  constructor
  · exact (hbytes 12 _ (by decide)).mpr (by decide)
  · exact (hstring [] (by decide) (by decide)).mpr (by decide)

/-- The last four bytes of the page. -/
theorem peeks_not_returned :
    Paged onePage ∧ ByteMemory.bytes onePage 0x1ffc 4 = some [0, 0, 0, 0] ∧
      (¬ ∃ buf, Yields onePage (ptracePeekBytes 1 0x1ffc 4) buf ∧ buf.take 4 = [0, 0, 0, 0]) ∧
      ¬ ∃ enough, ∀ fuel ≥ enough, Yields onePage (ptracePeekString fuel 1 0x1ffc) [] := by
  have hbytes : ByteMemory.bytes onePage 0x1ffc 4 = some [0, 0, 0, 0] := by decide
  have hone : ByteMemory.bytes onePage 0x1ffc 1 = some [0] := by decide
  refine ⟨onePage_paged, hbytes, fun hpeek => ?_, fun hpeek => ?_⟩
  · have hcovered := ((yields_peekBytes_iff (n := 4) hbytes).mp hpeek).2
    revert hcovered
    decide
  · have hcovered := (yields_peekString_iff (by decide) hone).mp hpeek
    revert hcovered
    decide

end Pyflame
