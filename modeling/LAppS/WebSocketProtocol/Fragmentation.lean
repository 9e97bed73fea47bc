import LAppS.StreamProcessing.ClientParser
import LAppS.WebSocketProtocol.Messages

/-!
# Fragmented messages at the client

The frames of one message, fragmented by the server or not, are one message for the parser of the client.
-/

namespace LAppS.WebSocketProtocol
open Rfc6455 StreamProcessing

variable {oc : OpCode} {src : List UInt8} {limit : Nat} {fs : List Frame} {chunks : List (List UInt8)}

/-- A message whose frames are not empty is delivered with the last byte of its last frame. -/
theorem received_carries (presz : Nat) (hlimit : limit < 2 ^ 64) (carries : Carries none fs oc src)
    (hlen : src.length ≤ limit) (hframes : ∀ f ∈ fs, f.payload ≠ []) (nonempty : [] ∉ chunks)
    (hinitial : chunks.flatten <+: encodeAll false fs) :
    (received .client presz limit chunks).1 =
      if chunks.flatten = encodeAll false fs then [.message oc src] else [] := by
  have noEmpty : ¬EmptyEndsAt false fs chunks.flatten.length := by
    rintro ⟨before, f, after, rfl, -, hempty, -⟩
    exact hframes f (by simp) hempty
  rw [(client_prompt_at presz hlimit carries.legalSeq (carries.withinSeq hlen) nonempty hinitial).mpr noEmpty]
  split
  · rename_i all
    rw [all, completeIn_all, carries.assemble.1]
  · rename_i part
    have short : chunks.flatten.length < (encodeAll false fs).length :=
      Nat.lt_of_le_of_ne hinitial.length_le fun h => part (hinitial.eq_of_length h)
    exact carries.assemble_initial (completeIn_initial false fs _) (completeIn_ne short)

/-- The bytes that each constructor queues for the payload `src`; `tail` is what lies behind it in memory. -/
def streams (oc : OpCode) (src tail : List UInt8) : List (List UInt8) :=
  [(FragmentedServerMessage.ofChars oc (src ++ tail) src.length).flatten,
    (FragmentedServerMessage.ofVector oc src).flatten, (FragmentedServerMessage.ofShared oc src).flatten,
    ServerMessage.ofShared oc src, ServerMessage.ofChars oc (src ++ tail) src.length,
    ServerMessage.ofVector oc src, ServerMessage.intoShared oc src]

/-- Whichever constructor is used, the stream is a sequence of frames that carry the message. -/
theorem streams_carries (data : oc.isData = true) {tail stream : List UInt8}
    (hlen : src.length < 2 ^ 64) (hne : src ≠ [])
    (h : stream ∈ streams oc src tail) :
    ∃ fs, stream = encodeAll false fs ∧ Carries none fs oc src ∧ ∀ f ∈ fs, f.payload ≠ [] := by
  have fragmented (tail : List UInt8) : ∃ fs,
      (FragmentedServerMessage.build oc (src ++ tail) src.length).flatten = encodeAll false fs ∧
        Carries none fs oc src ∧ ∀ f ∈ fs, f.payload ≠ [] := by
    obtain ⟨fs, hfs, carries, hframes⟩ := FragmentedServerMessage.build_carries data tail hlen
    exact ⟨fs, by rw [hfs, encodeAll, List.flatMap_def], carries, hframes hne⟩
  have single (tail : List UInt8) : ∃ fs,
      message (128 ||| oc.toByte) (src ++ tail) src.length = encodeAll false fs ∧
        Carries none fs oc src ∧ ∀ f ∈ fs, f.payload ≠ [] := by
    refine ⟨[serverFrame true oc src hlen], ?_, carries_single data hlen, by simpa using hne⟩
    rw [encodeAll_cons, encode_serverFrame]
    simp [message]
  have fragmented_nil := fragmented []
  have single_nil := single []
  rw [List.append_nil] at fragmented_nil single_nil
  simp only [streams, List.mem_cons, List.not_mem_nil, or_false] at h
  rcases h with h | h | h | h | h | h | h <;> rw [h]
  · exact fragmented tail
  · exact fragmented_nil
  · exact fragmented_nil
  · exact single_nil
  · exact single tail
  · exact single_nil
  · exact single_nil

/-- However the server writes a message and however the stream is cut, the client gets this one message, with
the chunk that holds the last byte. -/
theorem fragmentation_transparent (presz : Nat) (oc : OpCode) (data : oc.isData = true) (src tail : List UInt8)
    (hne : 1 ≤ src.length) (hlen : src.length ≤ 16777216) (stream : List UInt8)
    (hstream : stream ∈ streams oc src tail) (chunks : List (List UInt8)) (nonempty : [] ∉ chunks)
    (split : chunks.flatten = stream) (n : Nat) :
    (received .client presz 16777216 (chunks.take n)).1 =
      if (chunks.take n).flatten = stream then [.message oc src] else [] := by
  obtain ⟨fs, rfl, carries, hframes⟩ := streams_carries data (by omega) (List.ne_nil_of_length_pos hne) hstream
  exact received_carries presz (by decide) carries hlen hframes (fun h => nonempty (List.mem_of_mem_take h))
    (split ▸ flatten_take_initial chunks n)

/-- The smallest payload that is fragmented. -/
def twoFragments : List UInt8 := List.replicate 2784 7

/-- Its two frames, cut inside the second one. -/
def twoFragmentChunks : List (List UInt8) :=
  [(FragmentedServerMessage.ofVector .text twoFragments).flatten.take 2000,
    (FragmentedServerMessage.ofVector .text twoFragments).flatten.drop 2000]

theorem fragmentation_transparent_2784 :
    (received .client 512 16777216 (twoFragmentChunks.take 1)).1 = [] ∧
    (received .client 512 16777216 (twoFragmentChunks.take 2)).1 = [.message .text twoFragments] := by
  have delivered (n : Nat) := fragmentation_transparent 512 .text rfl twoFragments [] (by decide +kernel)
    (by decide +kernel) (FragmentedServerMessage.ofVector .text twoFragments).flatten (by simp [streams])
    twoFragmentChunks (by decide +kernel) (by simp [twoFragmentChunks]) n
  refine ⟨(delivered 1).trans (if_neg (by decide +kernel)), (delivered 2).trans (if_pos (by decide +kernel))⟩

end LAppS.WebSocketProtocol
