import ChessGame.Lib.Scan
import ChessGame.Lib.Reflect
import ChessGame.Lib.Walk
import ChessGame.Lib.Runs
import ChessGame.Lib.Toggle
import ChessGame.Lib.Gaps
import ChessGame.Lib.Frames
import ChessGame.Lib.Literals
import ChessGame.Lib.Nearest
import ChessGame.Lib.Significand
import ChessGame.Lib.Programs
import ChessGame.Lib.Utf8
import ChessGame.Bitboard
import ChessGame.Pieces
import ChessGame.Masks
import ChessGame.Move
import ChessGame.Rules
import ChessGame.MoveGen
import ChessGame.Attacks
import ChessGame.Rays
import ChessGame.Generator
import ChessGame.Zobrist
import ChessGame.Position
import ChessGame.Apply
import ChessGame.Legality
import ChessGame.Play
import ChessGame.Single
import ChessGame.Mailbox
import ChessGame.Flip
import ChessGame.CastlingRights
import ChessGame.Representation
import ChessGame.Material
import ChessGame.Hashing
import ChessGame.Repetition
import ChessGame.Fen
import ChessGame.EnPassant
import ChessGame.Clocks
import ChessGame.Room
import ChessGame.Kings
import ChessGame.Mirror
import ChessGame.Verdict
import ChessGame.Database
import ChessGame.Statements
import ChessGame.Server
import ChessGame.Sessions
import ChessGame.Changes
import ChessGame.Lobby
import ChessGame.Endings
import ChessGame.Turns
import ChessGame.Tables
import ChessGame.Pace
import ChessGame.Limit
import ChessGame.Draws
import ChessGame.Accounts
import ChessGame.Records
import ChessGame.Ratings
import ChessGame.Bookings
import ChessGame.Json
import ChessGame.Lexer
import ChessGame.Parser
import ChessGame.Protocol
import ChessGame.Dispatch
import ChessGame.Wire
import ChessGame.Points
import ChessGame.Network
import ChessGame.Writes
import ChessGame.Streams
import ChessGame.Console
import ChessGame.Client
import ChessGame.Incoming
import ChessGame.Told
import ChessGame.Transcripts
import ChessGame.Messages
import ChessGame.Screen
import ChessGame.Prompt
import ChessGame.Passwords
import ChessGame.Audience
