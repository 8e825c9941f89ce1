import BlockStream.Buffer.Step
import BlockStream.Cursor.Step
import BlockStream.Main
import BlockStream.Session.Desk
import BlockStream.Tree.Walk
import BlockStream.Proofs.Buffer.ReadBack
import BlockStream.Proofs.Decode.Safe
import BlockStream.Proofs.Session.AppendOnly
import BlockStream.Proofs.Session.RoundTrip
import BlockStream.Proofs.Decode.Shift
import BlockStream.Proofs.Decode.Concatenation
import BlockStream.Proofs.Decode.Skipping
import BlockStream.Proofs.Decode.Persist
import BlockStream.Proofs.Wire.Recount
import BlockStream.Proofs.Session.Replay
import BlockStream.Proofs.Session.Nests
import BlockStream.Proofs.Session.NormalForm
import BlockStream.Proofs.Decode.Truncation
import BlockStream.Proofs.Session.Acts
import BlockStream.Proofs.Session.Ledger
import BlockStream.Proofs.Session.Foreign
import BlockStream.Proofs.Listing.Numbering
import BlockStream.Proofs.Decode.Tally
import BlockStream.Proofs.Decode.WrongLength
import BlockStream.Proofs.Session.Appended
import BlockStream.Proofs.Listing.Unambiguous
import BlockStream.Proofs.Buffer.Reached
import BlockStream.Proofs.Cursor.Chunks
import BlockStream.Proofs.Buffer.Shortest
import BlockStream.Proofs.Session.Registered
import BlockStream.Proofs.Registry.Nearest
import BlockStream.Proofs.Session.Outermost
import BlockStream.Proofs.Session.Thinned
import BlockStream.Proofs.Session.Trace
import BlockStream.Proofs.Cursor.Runs
import BlockStream.Proofs.Buffer.Pieces
import BlockStream.Proofs.Listing.Styling
import BlockStream.Proofs.Buffer.Characters
import BlockStream.Proofs.Abbreviation
import BlockStream.Proofs.Fields
import BlockStream.Proofs.Abbreviation.TypeIndex
import BlockStream.Proofs.Session.Definitions
import BlockStream.Proofs.Console.Files
import BlockStream.Proofs.Console.Spelling
import BlockStream.Proofs.Console.Commands
