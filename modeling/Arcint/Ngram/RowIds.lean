import Mathlib.Data.List.Range
import Mathlib.Data.Int.Basic

/-! # N-gram row ids

The hashed table rows of a run of tokens, as `exec/ngram_row_ids.h` computes
them. Products and their XOR are formed in 64 bits; the signed value is reduced
by a floor modulus and offset into the concatenated row space of the heads.
-/

namespace Arcint.Ngram

/-- The reasons `row_ids` and its validation throw with. -/
inductive RowIdsError where
  | ngramSize (size : Int)
  | headsPerNgram (heads : Int)
  | layerMultipliers (entries : Nat) (size : Int)
  | headBuffers (sizes offsets : Nat) (expected : Int)
  | negativeEos (id : Int)
  | vocabSize (head : Nat) (size : Int)
  | offsetOrder (head : Nat) (offset : Int)
  | contextLength (ids : Nat) (expected : Int)
  deriving DecidableEq, Repr

def RowIdsError.message : RowIdsError → String
  | .ngramSize size => "ngram row_ids: ngram_size " ++ toString size ++ " < 2"
  | .headsPerNgram heads => "ngram row_ids: heads_per_ngram " ++ toString heads ++ " < 1"
  | .layerMultipliers entries size =>
      "ngram row_ids: layer_multipliers has " ++ toString entries ++
        " entries, ngram_size is " ++ toString size
  | .headBuffers sizes offsets expected =>
      "ngram row_ids: head buffers are " ++ toString sizes ++ "/" ++ toString offsets ++
        " long, expected " ++ toString expected ++ " ((ngram_size-1)*heads_per_ngram)"
  | .negativeEos id =>
      "ngram row_ids: eos_token_id " ++ toString id ++ " is negative (no hash boundary set)"
  | .vocabSize head size =>
      "ngram row_ids: head " ++ toString head ++ " vocab size " ++ toString size ++
        " is not positive"
  | .offsetOrder head offset =>
      "ngram row_ids: head " ++ toString head ++ " offset " ++ toString offset ++
        " is not strictly increasing (concatenated global row space must not overlap)"
  | .contextLength ids expected =>
      "ngram row_ids: context has " ++ toString ids ++ " ids, ngram_size-1 is " ++
        toString expected

/-- The hash constants and the geometry of one PLE layer. -/
structure HashParams where
  ngramSize : Int
  headsPerNgram : Int
  eosTokenId : Int
  layerMultipliers : List Int
  ngramHeadsVocabSizes : List Int
  ngramHeadsOffsets : List Int
  deriving DecidableEq, Repr

namespace HashParams

variable (p : HashParams)

def numNgramHeads : Int := (p.ngramSize - 1) * p.headsPerNgram

/-- The number of tokens a hash window reaches back. -/
def ctxLen : Nat := (p.ngramSize - 1).toNat

/-- The head loop of `validate`: sizes positive, offsets strictly increasing. -/
def validateHeads : Nat → Int → List Int → List Int → Except RowIdsError Unit
  | head, prevOffset, size :: sizes, offset :: offsets =>
      if size ≤ 0 then .error (.vocabSize head size)
      else if offset ≤ prevOffset then .error (.offsetOrder head offset)
      else validateHeads (head + 1) offset sizes offsets
  | _, _, _, _ => .ok ()

def validate : Except RowIdsError Unit :=
  if p.ngramSize < 2 then .error (.ngramSize p.ngramSize)
  else if p.headsPerNgram < 1 then .error (.headsPerNgram p.headsPerNgram)
  else if (p.layerMultipliers.length : Int) ≠ p.ngramSize then
    .error (.layerMultipliers p.layerMultipliers.length p.ngramSize)
  else if (p.ngramHeadsVocabSizes.length : Int) ≠ p.numNgramHeads ∨
      (p.ngramHeadsOffsets.length : Int) ≠ p.numNgramHeads then
    .error (.headBuffers p.ngramHeadsVocabSizes.length p.ngramHeadsOffsets.length
      p.numNgramHeads)
  else if p.eosTokenId < 0 then .error (.negativeEos p.eosTokenId)
  else validateHeads 0 (-1) p.ngramHeadsVocabSizes p.ngramHeadsOffsets

end HashParams

/-- `in_segment` from column `pos` on: how many columns lie strictly between the
last boundary and each column. -/
def inSegment (eos : Int) : Nat → Int → List Int → List Int
  | _, _, [] => []
  | pos, lastEos, id :: rest =>
      (pos - lastEos - 1) :: inSegment eos (pos + 1) (if id = eos then pos else lastEos) rest

/-- The token `s` columns left of `col`, or the boundary token when the window
runs off the start or crosses a boundary. -/
def shiftedToken (p : HashParams) (packed segments : List Int) (col s : Nat) : Int :=
  if s ≤ col ∧ (s : Int) ≤ (segments[col]?).getD 0 then (packed[col - s]?).getD 0
  else p.eosTokenId

/-- One factor of the mix: a shifted token times the multiplier of its position. -/
def product (p : HashParams) (packed segments : List Int) (col position : Nat) : BitVec 64 :=
  BitVec.ofInt 64 (shiftedToken p packed segments col position) *
    BitVec.ofInt 64 ((p.layerMultipliers[position]?).getD 0)

/-- The mixed value of the n-gram of this order that ends at `col`. -/
def mixed (p : HashParams) (packed segments : List Int) (col ngram : Nat) : BitVec 64 :=
  (List.range' 1 (ngram - 1)).foldl
    (fun mix position => mix ^^^ product p packed segments col position)
    (product p packed segments col 0)

/-- The global row of head `h` for a mixed value: a floor modulus, then the
head's offset. -/
def headRow (p : HashParams) (value : Int) (h : Nat) : Int :=
  let v := (p.ngramHeadsVocabSizes[h]?).getD 0
  let r := value.tmod v
  (if r < 0 then r + v else r) + (p.ngramHeadsOffsets[h]?).getD 0

/-- The rows of the token at `col`, one per head: the heads of each order are
consecutive. -/
def tokenRows (p : HashParams) (packed segments : List Int) (col : Nat) : List Int :=
  (List.range' 2 (p.ngramSize.toNat - 1)).flatMap fun ngram =>
    (List.range p.headsPerNgram.toNat).map fun k =>
      headRow p (mixed p packed segments col ngram).toInt
        ((ngram - 2) * p.headsPerNgram.toNat + k)

/-- `row_ids`: the global table row of every token and head, row-major. -/
def rowIds (p : HashParams) (context tokens : List Int) : Except RowIdsError (List Int) :=
  match p.validate with
  | .error e => .error e
  | .ok () =>
      if (context.length : Int) ≠ p.ngramSize - 1 then
        .error (.contextLength context.length (p.ngramSize - 1))
      else
        let packed := context ++ tokens
        let segments := inSegment p.eosTokenId 0 (-1) packed
        .ok ((List.range tokens.length).flatMap fun i =>
          tokenRows p packed segments (context.length + i))

theorem tokenRows_length (p : HashParams) (packed segments : List Int) (col : Nat) :
    (tokenRows p packed segments col).length =
      (p.ngramSize.toNat - 1) * p.headsPerNgram.toNat := by
  simp [tokenRows, List.length_flatMap]

end Arcint.Ngram
